import JitBroker.Proofs.Toml.Lines
import JitBroker.Proofs.Toml.Tables
import JitBroker.Toml.Codec

/-!
# Faithful writers and readers

What may be asked of a writer and a reader of TOML documents is said of documents with tables one
level deep (`Sheet`), whose names need no quotes and whose values are numbers, truth values and
texts without escapes. Of these, a faithful codec (`Codec.Faithful`) writes those whose numbers are
at most `2 ^ 63 - 1`, and no others, and what it has written it reads back as it was.

The codec that is used is faithful (`faithful_codec`). The lines of a text are its statements
(`reads_toText?`), and these make the document (`ofStatements?_flat`).
-/

namespace JitBroker.Toml

/-! ### Sheets -/

/-- A document with tables one level deep. -/
structure Sheet where
  /-- The single values. -/
  pairs : List (String × Json)
  /-- The tables. -/
  tables : List (String × List (String × Json))
  /-- The name of the list of tables. -/
  key : String
  /-- The tables in the list. -/
  items : List (List (String × Json))

namespace Sheet

/-- The document as a value. -/
def toJson (s : Sheet) : Json :=
  .obj (s.pairs ++ (s.tables.map fun t => (t.1, Json.obj t.2)) ++
    [(s.key, Json.arr (s.items.map .obj))])

/-- The single values wherever they stand. -/
def cells (s : Sheet) : List (String × Json) :=
  s.pairs ++ s.tables.flatMap Prod.snd ++ s.items.flatten

end Sheet

/-- Whether a value is a number without a sign, a truth value, or a text without escapes. -/
def Plain : Json → Prop
  | .bool _ => True
  | .int n => 0 ≤ n
  | .str s => ∀ c ∈ s.toList, isLiteral c
  | _ => False

/-- Whether a value is no number that is too great for a document, that is, above `2 ^ 63 - 1`. -/
def Fits : Json → Prop
  | .int n => n ≤ 0x7FFFFFFFFFFFFFFF
  | _ => True

/-- A document that is written as it is: nothing in it needs quotes or escapes. -/
structure Sheet.IsPlain (s : Sheet) : Prop where
  /-- The single values are plain, and so are their names. -/
  cells : ∀ p ∈ s.cells, IsBareName p.1 ∧ Plain p.2
  /-- The names of the tables and of the list need no quotes. -/
  headers : ∀ name ∈ names s.tables ++ [s.key], IsBareName name
  /-- No name is given twice in the document. -/
  nodup : (names s.pairs ++ names s.tables ++ [s.key]).Nodup
  /-- Nor in a table. -/
  nodup_tables : ∀ t ∈ s.tables, (names t.2).Nodup
  /-- Nor in a table of the list. -/
  nodup_items : ∀ t ∈ s.items, (names t).Nodup
  /-- There is a single value. -/
  pairs_ne_nil : s.pairs ≠ []
  /-- There is a table in the list. -/
  items_ne_nil : s.items ≠ []

/-- A writer and a reader of documents that keep what they say. -/
structure Codec.Faithful (codec : Codec) : Prop where
  /-- A document is written if its numbers are not too great. -/
  writes : ∀ {s : Sheet}, s.IsPlain → (∀ p ∈ s.cells, Fits p.2) → (codec.write? s.toJson).isSome
  /-- It is not written if one of them is. -/
  refuses : ∀ {s : Sheet}, s.IsPlain → ∀ p ∈ s.cells, ¬ Fits p.2 → codec.write? s.toJson = none
  /-- What is written is read back as it was. -/
  reads : ∀ {s : Sheet} {text : String}, s.IsPlain → codec.write? s.toJson = some text →
    codec.read? text = some s.toJson

/-! ### The text of a sheet -/

variable {name header line text : String} {v : Json} {pairs : List (String × Json)} {s : Sheet}

theorem isInline_of_plain (hv : Plain v) : isInline v = true := by
  cases v with
  | null | bool | int | float | str => rfl
  | arr | obj => cases hv

namespace Sheet.IsPlain

/-- The single values come first in the text, then the tables, then the list. -/
theorem toText?_eq_some_iff (hs : s.IsPlain) : toText? s.toJson = some text ↔
    ∃ lines tables items, pairLines? s.pairs = some lines ∧
      (s.tables.mapM fun t => section? ("[" ++ t.1 ++ "]") (.obj t.2)) = some tables ∧
      (s.items.mapM fun t => section? ("[[" ++ s.key ++ "]]") (.obj t)) = some items ∧
      text = lines ++ String.join (tables ++ [String.join items]) := by
  have inline : ∀ p ∈ s.pairs, isInline p.2 = true := fun p hp =>
    isInline_of_plain (hs.cells p (by simp [Sheet.cells, hp])).2
  have list : isInline (.arr (s.items.map .obj)) = false := by
    cases h : s.items with
    | nil => exact absurd h hs.items_ne_nil
    | cons => rfl
  have tables : ∀ p ∈ s.tables.map fun t => (t.1, Json.obj t.2), isInline p.2 = false := by
    intro p hp
    obtain ⟨t, -, rfl⟩ := List.mem_map.1 hp
    rfl
  have front : (s.pairs ++ (s.tables.map fun t => (t.1, Json.obj t.2)) ++
      [(s.key, Json.arr (s.items.map .obj))]).filter (isInline ·.2) = s.pairs := by
    rw [List.filter_append, List.filter_append, List.filter_eq_self.2 inline,
      List.filter_eq_nil_iff.2 fun p hp => by simp [tables p hp]]
    simp [list]
  have back : (s.pairs ++ (s.tables.map fun t => (t.1, Json.obj t.2)) ++
      [(s.key, Json.arr (s.items.map .obj))]).filter (!isInline ·.2) =
      (s.tables.map fun t => (t.1, Json.obj t.2)) ++ [(s.key, .arr (s.items.map .obj))] := by
    rw [List.filter_append, List.filter_append,
      List.filter_eq_nil_iff.2 fun p hp => by simp [inline p hp],
      List.filter_eq_self.2 fun p hp => by simp [tables p hp]]
    simp [list]
  rw [toJson, toText?, front, back, List.mapM_append, List.mapM_map]
  cases pairLines? s.pairs <;>
    cases htables : s.tables.mapM fun t => section? ("[" ++ t.1 ++ "]") (.obj t.2) <;>
    cases hitems : s.items.mapM fun t => section? ("[[" ++ s.key ++ "]]") (.obj t) <;>
    simp [sections?, Function.comp_def, htables, hitems, eq_comm]

end Sheet.IsPlain

/-! ### Numbers that fit -/

theorem isSome_mapM {α β : Type} {f : α → Option β} {l : List α} :
    (l.mapM f).isSome ↔ ∀ a ∈ l, (f a).isSome := by
  induction l with
  | nil => simp
  | cons a l ih =>
    rw [List.forall_mem_cons, ← ih, List.mapM_cons]
    cases f a <;> cases l.mapM f <;> simp

theorem isSome_pairLines? : (pairLines? pairs).isSome ↔ ∀ p ∈ pairs, (pairLine? p).isSome := by
  rw [pairLines?, Option.isSome_map, isSome_mapM]

theorem isSome_section? :
    (section? header (.obj pairs)).isSome ↔ ∀ p ∈ pairs, (pairLine? p).isSome := by
  rw [section?, Option.isSome_map, isSome_pairLines?]

/-- A plain value has a line exactly if it is not too great. -/
theorem isSome_pairLine? (hv : Plain v) : (pairLine? (name, v)).isSome ↔ Fits v := by
  cases v with
  | bool | str => exact iff_of_true rfl trivial
  | int n =>
    have same : n ≤ greatestNumber ↔ Fits (.int n) := Iff.rfl
    rw [← same, pairLine?]
    split <;> simp_all
  | null | float | arr | obj => cases hv

/-- A plain document has a text exactly if its numbers are not too great. -/
theorem Sheet.IsPlain.isSome_toText? (hs : s.IsPlain) :
    (toText? s.toJson).isSome ↔ ∀ p ∈ s.cells, Fits p.2 := by
  have fits : (∀ p ∈ s.cells, Fits p.2) ↔ ∀ p ∈ s.cells, (pairLine? p).isSome :=
    forall₂_congr fun p hp => (isSome_pairLine? (hs.cells p hp).2).symm
  have parts : (toText? s.toJson).isSome ↔ (pairLines? s.pairs).isSome ∧
      (s.tables.mapM fun t => section? ("[" ++ t.1 ++ "]") (.obj t.2)).isSome ∧
      (s.items.mapM fun t => section? ("[[" ++ s.key ++ "]]") (.obj t)).isSome := by
    simp only [Option.isSome_iff_exists, hs.toText?_eq_some_iff]
    constructor
    · rintro ⟨_, lines, tables, items, hlines, htables, hitems, -⟩
      exact ⟨⟨lines, hlines⟩, ⟨tables, htables⟩, ⟨items, hitems⟩⟩
    · rintro ⟨⟨lines, hlines⟩, ⟨tables, htables⟩, ⟨items, hitems⟩⟩
      exact ⟨_, lines, tables, items, hlines, htables, hitems, rfl⟩
  rw [fits, parts, isSome_pairLines?, isSome_mapM, isSome_mapM]
  simp only [isSome_section?, Sheet.cells, List.forall_mem_append, List.forall_mem_flatMap,
    List.forall_mem_flatten]
  exact and_assoc.symm

/-! ### The statements of a sheet -/

/-- The line of a pair is its statement. -/
theorem reads_pairLine? (hname : IsBareName name) (hv : Plain v)
    (h : pairLine? (name, v) = some line) : Reads line.toList [.pair ⟨[], name⟩ v] := by
  cases v with
  | bool b =>
    obtain rfl := Option.some.inj h
    simpa using reads_pair hname fun n depth rest => value?_bool b
  | int n =>
    obtain ⟨m, rfl⟩ := Int.eq_ofNat_of_zero_le hv
    simp only [pairLine?, Option.ite_none_right_eq_some, Option.some.injEq] at h
    obtain ⟨hle, rfl⟩ := h
    have hm : m < 2 ^ 63 := by
      simp only [greatestNumber] at hle
      omega
    simpa using reads_pair hname fun n depth rest => value?_nat hm
  | str s =>
    obtain rfl := Option.some.inj h
    simpa using reads_pair hname fun n depth rest => value?_str hv
  | null | float | arr | obj => cases hv

/-- Texts, one after the other, are the statements of each. -/
theorem reads_mapM {α : Type} {l : List α} {write : α → Option String} {lines : List String}
    {read : α → List Statement}
    (hread : ∀ a ∈ l, ∀ line, write a = some line → Reads line.toList (read a))
    (h : l.mapM write = some lines) : Reads (String.join lines).toList (l.flatMap read) := by
  induction l generalizing lines with
  | nil =>
    obtain rfl : [] = lines := by simpa using h
    exact reads_nil
  | cons a l ih =>
    simp only [List.mapM_cons, Option.bind_eq_bind, Option.bind_eq_some_iff, Option.pure_def,
      Option.some.injEq] at h
    obtain ⟨line, hline, more, hmore, rfl⟩ := h
    rw [List.forall_mem_cons] at hread
    have both := (hread.1 line hline).append (ih hread.2 hmore)
    simpa [String.toList_join] using both

/-- The lines of pairs are their statements. -/
theorem reads_pairLines? (hpairs : ∀ p ∈ pairs, IsBareName p.1 ∧ Plain p.2)
    (h : pairLines? pairs = some text) : Reads text.toList (pairsOf pairs) := by
  rw [pairLines?, Option.map_eq_some_iff] at h
  obtain ⟨lines, hlines, rfl⟩ := h
  rw [pairsOf, List.map_eq_flatMap]
  exact reads_mapM (fun p hp line => reads_pairLine? (hpairs p hp).1 (hpairs p hp).2) hlines

/-- The lines of a table, after an empty one, are the statement of the header and those of the
pairs. -/
theorem reads_section? {st : Statement} (hpairs : ∀ p ∈ pairs, IsBareName p.1 ∧ Plain p.2)
    (hheader : Reads (header.toList ++ ['\n']) [st])
    (h : section? header (.obj pairs) = some text) : Reads text.toList (st :: pairsOf pairs) := by
  rw [section?, Option.map_eq_some_iff] at h
  obtain ⟨lines, hlines, rfl⟩ := h
  have whole := reads_blank.append (hheader.append (reads_pairLines? hpairs hlines))
  simpa using whole

/-- A text that begins with the line of a pair begins with its name. -/
theorem head?_pairLines? {p : String × Json} (hname : p.1 ≠ "")
    (h : pairLines? (p :: pairs) = some text) : text.toList.head? = p.1.toList.head? := by
  rw [pairLines?, Option.map_eq_some_iff] at h
  obtain ⟨lines, hlines, rfl⟩ := h
  simp only [List.mapM_cons, Option.bind_eq_bind, Option.bind_eq_some_iff, Option.pure_def,
    Option.some.injEq] at hlines
  obtain ⟨line, hline, more, -, rfl⟩ := hlines
  have begins : ∃ rest, line = p.1 ++ rest := by
    unfold pairLine? at hline
    split at hline
    case h_1 name b =>
      exact ⟨" = " ++ toString b ++ "\n", by simpa [String.append_assoc] using hline.symm⟩
    case h_2 name n =>
      rw [Option.ite_none_right_eq_some] at hline
      exact ⟨" = " ++ toString n ++ "\n", by simpa [String.append_assoc] using hline.2.symm⟩
    case h_3 name s =>
      exact ⟨" = " ++ Json.quote s ++ "\n", by simpa [String.append_assoc] using hline.symm⟩
    case h_4 name => exact ⟨" = []\n", (Option.some.inj hline).symm⟩
    case h_5 => cases hline
  obtain ⟨rest, rfl⟩ := begins
  have nonempty : p.1.toList ≠ [] := fun e => hname (String.toList_inj.1 e)
  simp [String.toList_join, List.head?_append_of_ne_nil _ nonempty]

namespace Sheet

/-- The statements of a document. -/
def statements (s : Sheet) : List Statement :=
  pairsOf s.pairs ++ s.tables.flatMap tableOf ++ s.items.flatMap (itemOf s.key)

namespace IsPlain

/-- The text of a document is its statements. -/
theorem reads_toText? (hs : s.IsPlain) (h : toText? s.toJson = some text) :
    Reads text.toList s.statements := by
  obtain ⟨lines, tables, items, hlines, htables, hitems, rfl⟩ := hs.toText?_eq_some_iff.1 h
  have first := reads_pairLines? (fun p hp => hs.cells p (by simp [Sheet.cells, hp])) hlines
  have second : Reads (String.join tables).toList (s.tables.flatMap tableOf) := by
    refine reads_mapM (fun t ht line => reads_section? (fun p hp => hs.cells p ?_) ?_) htables
    · exact List.mem_append_left _ (List.mem_append_right _ (List.mem_flatMap.2 ⟨t, ht, hp⟩))
    · simpa using reads_table (hs.headers t.1 (by simp [names, List.mem_map_of_mem ht]))
  have third : Reads (String.join items).toList (s.items.flatMap (itemOf s.key)) := by
    refine reads_mapM (fun t ht line => reads_section? (fun p hp => hs.cells p ?_) ?_) hitems
    · exact List.mem_append_right _ (List.mem_flatten.2 ⟨t, ht, hp⟩)
    · simpa using reads_item (hs.headers s.key (by simp))
  have whole := (first.append second).append third
  simpa [statements, String.toList_join] using whole

/-- A text does not begin with a byte order mark. -/
theorem head?_toText? (hs : s.IsPlain) (h : toText? s.toJson = some text) :
    ∀ c ∈ text.toList.head?, c.toNat ≠ 0xFEFF := by
  obtain ⟨lines, tables, items, hlines, -, -, rfl⟩ := hs.toText?_eq_some_iff.1 h
  obtain ⟨p, pairs, hpairs⟩ := List.exists_cons_of_ne_nil hs.pairs_ne_nil
  have hname : IsBareName p.1 := (hs.cells p (by simp [Sheet.cells, hpairs])).1
  have first := head?_pairLines? hname.1 (hpairs ▸ hlines)
  obtain ⟨d, ds, hds, hd⟩ := hname.toList_eq_cons
  rw [hds, List.head?_cons] at first
  intro c hc hmark
  rw [String.toList_append, List.head?_append, first, Option.some_or] at hc
  obtain rfl := Option.some.inj hc
  refine ne_of_isBare hd (d := Char.ofNat 0xFEFF) (by decide) ?_
  rw [← hmark, Char.ofNat_toNat]

/-- The text of a document is read as the document. -/
theorem ofText?_toText? (hs : s.IsPlain) (h : toText? s.toJson = some text) :
    ofText? text = some s.toJson := by
  rw [ofText?_of_reads (hs.reads_toText? h) (hs.head?_toText? h), statements]
  exact ofStatements?_flat hs.nodup hs.nodup_tables hs.nodup_items hs.items_ne_nil

end IsPlain

end Sheet

/-- The codec that is used is faithful. -/
theorem faithful_codec : codec.Faithful where
  writes hs hfits := hs.isSome_toText?.2 hfits
  refuses hs p hp hfits := by
    refine Option.not_isSome_iff_eq_none.1 fun hsome => hfits ?_
    exact hs.isSome_toText?.1 hsome p hp
  reads hs h := hs.ofText?_toText? h

end JitBroker.Toml
