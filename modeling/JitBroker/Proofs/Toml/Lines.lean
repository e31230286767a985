import JitBroker.Proofs.Toml.Leaves

/-!
# Reading a document line by line

`Reads cs ss` says that the lines `cs`, wherever they stand, are the statements `ss`: a text that
begins with them is read as these statements and then those of the rest. So the lines of a document
may be read one after the other (`Reads.append`), each with the reader of its own kind: an empty
line, a pair, and a header of a table or of a further table of a list.
-/

namespace JitBroker.Toml

/-- The lines, at the front of any text, are the given statements. -/
def Reads (cs : List Char) (ss : List Statement) : Prop :=
  ∀ ⦃rest : List Char⦄ ⦃tail : List Statement⦄,
    (∀ n, rest.length < n → statements? n rest = some tail) →
    ∀ n, (cs ++ rest).length < n → statements? n (cs ++ rest) = some (ss ++ tail)

variable {cs ds text : List Char} {ss ts : List Statement} {s : Statement} {c : Char}
  {name : String} {v : Json}

/-! ### Sequences of lines -/

theorem reads_nil : Reads [] [] := fun _ _ h => h

/-- Lines after lines are the statements of both. -/
theorem Reads.append (hcs : Reads cs ss) (hds : Reads ds ts) : Reads (cs ++ ds) (ss ++ ts) := by
  intro rest tail h n hn
  rw [List.append_assoc] at hn ⊢
  rw [List.append_assoc]
  exact hcs (hds h) n hn

/-- A text that is lines, without a byte order mark, is the document of their statements. -/
theorem ofText?_of_reads {text : String} (h : Reads text.toList ss)
    (hmark : ∀ c ∈ text.toList.head?, c.toNat ≠ 0xFEFF) :
    ofText? text = Document.ofStatements? ss := by
  have nothing : ∀ n, ([] : List Char).length < n → statements? n [] = some [] := by
    rintro (_ | n) hn
    · exact absurd hn (Nat.lt_irrefl 0)
    · rfl
  have whole : statements? (text.toList.length + 1) text.toList = some ss := by
    simpa using h nothing (text.toList.length + 1)
  rw [ofText?]
  cases htext : text.toList with
  | nil => simpa [htext] using congrArg (Option.bind · Document.ofStatements?) whole
  | cons c cs =>
    have unmarked : c.toNat ≠ 0xFEFF := hmark c (by simp [htext])
    simpa [htext, unmarked] using congrArg (Option.bind · Document.ofStatements?) whole

/-! ### The kinds of lines -/

/-- An empty line is no statement. -/
theorem reads_blank : Reads ['\n'] [] := by
  intro rest tail h n hn
  cases n with
  | zero => exact absurd hn (Nat.not_lt_zero _)
  | succ n =>
    have read := h n (by simpa using hn)
    simpa [statements?] using read

/-- Whether a character may begin a statement. -/
def startsStatement (c : Char) : Bool := !isBlank c && c != '#' && c != '\n' && c != '\r'

/-- Lines on which one statement stands. -/
theorem reads_statement (hc : startsStatement c)
    (h : ∀ rest, statement? (c :: cs ++ rest) = some (s, rest)) : Reads (c :: cs) [s] := by
  intro rest tail hrest n hn
  cases n with
  | zero => exact absurd hn (Nat.not_lt_zero _)
  | succ n =>
    have read := hrest n (by simp at hn; omega)
    simp only [startsStatement, Bool.and_eq_true, Bool.not_eq_true', bne_iff_ne] at hc
    obtain ⟨⟨⟨nonblank, comment⟩, newline⟩, return_⟩ := hc
    have line : lineEnd? (c :: (cs ++ rest)) = none := by
      unfold lineEnd?
      split <;> simp_all
    have one := h rest
    rw [List.cons_append] at one ⊢
    rw [statements?, skipBlanks_of_not nonblank]
    simp [comment, line, one, read]

/-- A character of a bare name is none of those that are not. -/
theorem ne_of_isBare {d : Char} (h : isBare c) (hd : isBare d = false) : c ≠ d := by
  rintro rfl
  exact absurd (hd.symm.trans h) (by decide)

/-- A character of a bare name begins a statement. -/
theorem startsStatement_of_isBare (h : isBare c) : startsStatement c := by
  have ne : ∀ d, isBare d = false → c ≠ d := fun d => ne_of_isBare h
  simp [startsStatement, isBlank, ne ' ' (by decide), ne '\t' (by decide), ne '#' (by decide),
    ne '\n' (by decide), ne '\r' (by decide)]

/-- A line that gives a name a value. -/
theorem reads_pair (hname : IsBareName name) (hv : ∀ n depth rest,
    value? (n + 1) depth (skipBlanks (text ++ '\n' :: rest)) = some (v, '\n' :: rest)) :
    Reads (name.toList ++ ' ' :: '=' :: ' ' :: (text ++ ['\n'])) [.pair ⟨[], name⟩ v] := by
  obtain ⟨d, ds, h, hd⟩ := hname.toList_eq_cons
  have key : ∀ rest, keyPath? (name.toList ++ ' ' :: '=' :: rest) = some (⟨[], name⟩, '=' :: rest) :=
    fun rest => keyPath?_append hname (by decide) (by simp [skipBlanks, isBlank])
  have equals : ∀ rest, Json.word? ['='] ('=' :: rest) = some rest := Json.word?_append ['=']
  simp only [h, List.cons_append] at key ⊢
  refine reads_statement (startsStatement_of_isBare hd) fun rest => ?_
  simp only [List.cons_append, List.append_assoc, List.nil_append]
  unfold statement?
  split
  case h_1 | h_2 => simp_all [isBare]
  case h_3 =>
    rw [key]
    simp [equals, hv]

/-- A line that opens a table. -/
theorem reads_table (hname : IsBareName name) :
    Reads ('[' :: (name.toList ++ [']', '\n'])) [.table ⟨[], name⟩] := by
  obtain ⟨d, ds, h, hd⟩ := hname.toList_eq_cons
  have key : ∀ rest, keyPath? (name.toList ++ ']' :: rest) = some (⟨[], name⟩, ']' :: rest) :=
    fun rest => keyPath?_append hname (by decide) (by simp [skipBlanks, isBlank])
  have close : ∀ rest, Json.word? [']'] (']' :: rest) = some rest := Json.word?_append [']']
  simp only [h, List.cons_append] at key ⊢
  refine reads_statement (by decide) fun rest => ?_
  simp only [List.cons_append, List.append_assoc, List.nil_append]
  unfold statement?
  split
  case h_1 => simp_all [isBare]
  case h_2 heq =>
    obtain rfl := (List.cons.inj heq).2
    simp [key, close]
  case h_3 => simp_all

/-- A line that opens a further table of a list. -/
theorem reads_item (hname : IsBareName name) :
    Reads ('[' :: '[' :: (name.toList ++ [']', ']', '\n'])) [.item ⟨[], name⟩] := by
  have key : ∀ rest, keyPath? (name.toList ++ ']' :: rest) = some (⟨[], name⟩, ']' :: rest) :=
    fun rest => keyPath?_append hname (by decide) (by simp [skipBlanks, isBlank])
  have close : ∀ rest, Json.word? [']', ']'] (']' :: ']' :: rest) = some rest :=
    Json.word?_append [']', ']']
  refine reads_statement (by decide) fun rest => ?_
  simp only [List.cons_append, List.append_assoc, List.nil_append, statement?]
  simp [key, close]

end JitBroker.Toml
