import JitBroker.Toml.Reader
import Mathlib.Algebra.GroupWithZero.Nat
import Mathlib.Data.List.Basic

/-!
# Reading what is written on a line

A line that was written plainly has a bare name, and a value that is a truth value, a number, or a
text without escapes. Each reader takes its own off the front of a text and leaves the rest, given
that the rest begins with a character that ends it: a blank or a closing bracket after a name, the
end of the line after a value.
-/

namespace JitBroker

/-- A word is at the front of a text that begins with another character only if it is empty. -/
theorem Json.word?_cons_of_ne {a c : Char} {word rest : List Char} (h : a ≠ c) :
    word? (a :: word) (c :: rest) = none := by
  simp [word?, List.isPrefixOf, h]

/-- A word is taken off the front of a text. -/
@[simp] theorem Json.word?_append (word rest : List Char) :
    word? word (word ++ rest) = some rest := by
  simp [word?]

namespace Toml

@[simp] theorem lineEnd?_newline (rest : List Char) : lineEnd? ('\n' :: rest) = some rest := rfl

@[simp] theorem skipBlanks_newline (rest : List Char) :
    skipBlanks ('\n' :: rest) = '\n' :: rest := rfl

@[simp] theorem skipBlanks_space (rest : List Char) : skipBlanks (' ' :: rest) = skipBlanks rest :=
  rfl

/-- Only blanks are skipped. -/
theorem skipBlanks_of_not {c : Char} (h : isBlank c = false) (rest : List Char) :
    skipBlanks (c :: rest) = c :: rest := by
  simp [skipBlanks, h]

/-- A statement ends with its line. -/
@[simp] theorem statementEnd?_newline (rest : List Char) :
    statementEnd? ('\n' :: rest) = some rest := rfl

/-! ### Numbers -/

section digits

variable {ds rest taken after : List Char} {c d : Char} {n k : Nat}

/-- The digits of a number do not begin with a zero, but for zero itself. -/
theorem head?_toDigits_ne (hn : 0 < n) : (Nat.toDigits 10 n).head? ≠ some '0' := by
  induction n using Nat.strongRecOn with
  | _ n ih =>
    rw [Nat.toDigits_eq_if (by decide)]
    split
    case isTrue hlt =>
      have one_digit : ∀ m < (10 : Nat), 0 < m → [m.digitChar].head? ≠ some '0' := by decide
      exact one_digit n hlt hn
    case isFalse hge =>
      rw [List.head?_append_of_ne_nil _ Nat.toDigits_ne_nil]
      exact ih (n / 10) (by omega) (by omega)

/-- The value of a decimal digit. -/
theorem hexValue?_of_isDigit (h : c.isDigit) : Json.hexValue? c = some (c.toNat - '0'.toNat) := by
  have between := Char.isDigit_iff_toNat.1 h
  exact if_pos between

/-- The digits of a number stand for it. -/
theorem ofDigits_toDigits (n : Nat) : ofDigits 10 (Nat.toDigits 10 n) = n := by
  have same : ∀ (ds : List Char) (m : Nat), (∀ c ∈ ds, c.isDigit) →
      ds.foldl (fun n c => n * 10 + (Json.hexValue? c).getD 0) m = Nat.ofDigitChars 10 ds m := by
    intro ds
    induction ds with
    | nil => intro m _; rfl
    | cons c ds ih =>
      intro m hds
      rw [List.forall_mem_cons] at hds
      rw [List.foldl_cons, ih _ hds.2, hexValue?_of_isDigit hds.1, Nat.mul_comm m 10]
      rfl
  rw [ofDigits, same _ _ fun c => Nat.isDigit_of_mem_toDigits (by decide) (by decide),
    Nat.ofDigitChars_ten_toDigits]

/-- The digits up to the end of the line, some of them already taken. -/
theorem digits?_go_append (hds : ∀ c ∈ ds, c.isDigit) :
    digits?.go Char.isDigit taken (ds ++ '\n' :: rest) =
      some (taken.reverse ++ ds, '\n' :: rest) := by
  induction ds generalizing taken with
  | nil => cases rest <;> simp [digits?.go, Char.isDigit]
  | cons c ds ih =>
    rw [List.forall_mem_cons] at hds
    obtain ⟨d, more, hmore⟩ : ∃ d more, ds ++ '\n' :: rest = d :: more := by
      cases ds <;> exact ⟨_, _, rfl⟩
    rw [List.cons_append, hmore, digits?.go, if_pos hds.1, ← hmore, ih hds.2]
    simp

/-- The digits up to the end of the line. -/
theorem digits?_append (hd : d.isDigit) (hds : ∀ c ∈ ds, c.isDigit) :
    digits? Char.isDigit (d :: ds ++ '\n' :: rest) = some (d :: ds, '\n' :: rest) := by
  rw [List.cons_append, digits?, if_pos hd, digits?_go_append hds]
  rfl

/-- What follows the first so many digits of a line: the remaining ones. -/
theorem fixedNumber?_append (h : fixedNumber? k (ds ++ '\n' :: rest) = some (n, after)) :
    after = ds.drop k ++ '\n' :: rest := by
  simp only [fixedNumber?, Option.ite_none_right_eq_some, Option.some.injEq, Prod.mk.injEq] at h
  obtain ⟨⟨-, all⟩, -, rfl⟩ := h
  rcases Nat.lt_or_ge ds.length k with hlt | hge
  · -- The end of the line would be among the digits.
    have mem : '\n' ∈ (ds ++ '\n' :: rest).take k := by
      rw [List.take_append]
      exact List.mem_append_right _ (by simp [List.take_cons (Nat.sub_pos_of_lt hlt)])
    exact absurd (List.all_eq_true.1 all _ mem) (by decide)
  · exact List.drop_append_of_le_length hge

/-- No mark follows digits on a line of digits. -/
theorem word?_drop (hds : ∀ c ∈ ds, c.isDigit) (hd : ¬ d.isDigit) (hne : d ≠ '\n') (k : Nat) :
    Json.word? [d] (ds.drop k ++ '\n' :: rest) = none := by
  cases h : ds.drop k with
  | nil => exact Json.word?_cons_of_ne hne
  | cons c more =>
    have hc := hds c (List.mem_of_mem_drop (h ▸ List.mem_cons_self))
    exact Json.word?_cons_of_ne fun e => hd (e ▸ hc)

/-- A line of digits is not a date or a time. -/
theorem moment?_digits (hds : ∀ c ∈ ds, c.isDigit) : moment? (ds ++ '\n' :: rest) = none := by
  have no_day : day? (ds ++ '\n' :: rest) = none := by
    rw [day?]
    cases h : fixedNumber? 4 (ds ++ '\n' :: rest) with
    | none => rfl
    | some p => simp [fixedNumber?_append (n := p.1) h, word?_drop hds]
  have no_time : time? (ds ++ '\n' :: rest) = none := by
    rw [time?]
    cases h : fixedNumber? 2 (ds ++ '\n' :: rest) with
    | none => rfl
    | some p => simp [fixedNumber?_append (n := p.1) h, word?_drop hds]
  rw [moment?, no_day]
  exact no_time

/-- The digits of a number: there is a first one, which is a zero only if it is the last. -/
theorem toDigits_eq_cons (n : Nat) : ∃ d ds, Nat.toDigits 10 n = d :: ds ∧ d.isDigit ∧
    (∀ c ∈ ds, c.isDigit) ∧ (d = '0' → ds = []) := by
  cases h : Nat.toDigits 10 n with
  | nil => exact absurd h Nat.toDigits_ne_nil
  | cons d ds =>
    have digits : ∀ c ∈ d :: ds, c.isDigit :=
      fun c hc => Nat.isDigit_of_mem_toDigits (by decide) (by decide) (h ▸ hc)
    rw [List.forall_mem_cons] at digits
    refine ⟨d, ds, rfl, digits.1, digits.2, fun zero => ?_⟩
    rcases Nat.eq_zero_or_pos n with rfl | hn
    · exact (List.cons.inj h).2.symm
    · exact absurd (by rw [h, zero]; rfl) (head?_toDigits_ne hn)

/-- A number that fits into 63 bits is an integer of the format. -/
theorem integer?_of_lt (hn : n < 2 ^ 63) : integer? n = some (.int n) := by
  have lower : -0x8000000000000000 ≤ (n : Int) := by omega
  have upper : (n : Int) < 0x8000000000000000 := by omega
  simp only [integer?, lower, upper, and_self, if_true]

/-- A number that fits into 63 bits, alone on a line. -/
theorem decimal?_toDigits (hn : n < 2 ^ 63) :
    decimal? (Nat.toDigits 10 n ++ '\n' :: rest) = some (.int n, '\n' :: rest) := by
  obtain ⟨d, ds, eq, hd, hds, hzero⟩ := toDigits_eq_cons n
  have value : ofDigits 10 (d :: ds) = n := eq ▸ ofDigits_toDigits n
  have fits := integer?_of_lt hn
  have unsigned : sign (d :: (ds ++ '\n' :: rest)) = (false, d :: (ds ++ '\n' :: rest)) := by
    unfold sign
    split <;> simp_all [Char.isDigit]
  rw [eq, List.cons_append, decimal?, unsigned]
  dsimp only
  split
  · simp_all [Char.isDigit]
  · simp_all [Char.isDigit]
  · -- Neither infinity nor something else that is not a number.
    by_cases h : d = '0'
    · obtain rfl := hzero h
      subst h
      simp [value, fits]
    · have no_mark : ¬ ('\n' = '.' ∨ '\n' = 'e' ∨ '\n' = 'E') := by decide
      split
      · simp_all
      · refine Option.bind_eq_some_iff.2 ⟨(d :: ds, '\n' :: rest), digits?_append hd hds, ?_⟩
        dsimp only
        rw [if_neg no_mark]
        simp [value, fits]

/-- A number that fits into 63 bits, alone on a line. -/
theorem numeric?_toDigits (hn : n < 2 ^ 63) :
    numeric? (Nat.toDigits 10 n ++ '\n' :: rest) = some (.int n, '\n' :: rest) := by
  have plain : decimal? (Nat.toDigits 10 n ++ '\n' :: rest) = _ := decimal?_toDigits hn
  obtain ⟨d, ds, eq, hd, hds, hzero⟩ := toDigits_eq_cons n
  rw [eq] at plain ⊢
  unfold numeric?
  rw [moment?_digits (List.forall_mem_cons.2 ⟨hd, hds⟩)]
  dsimp only [List.cons_append] at plain ⊢
  -- A leading zero is the only digit, so no mark of a radix follows it.
  split
  · simp_all
  · simp_all
  · simp_all
  · exact plain

end digits

/-! ### Texts and names -/

section texts

variable {cs rest : List Char} {c : Char} {n : Nat} {name : String}

/-- Whether a character stands for itself in a text between quotes. -/
def isLiteral (c : Char) : Bool :=
  decide (0x20 ≤ c.toNat) && c.toNat != 0x7F && c != '"' && c != '\\'

/-- A literal character is written as itself. -/
theorem escape_of_isLiteral (h : isLiteral c) : Json.escape c = [c] := by
  simp only [isLiteral, Bool.and_eq_true, decide_eq_true_eq, bne_iff_ne] at h
  obtain ⟨⟨⟨visible, -⟩, quote⟩, backslash⟩ := h
  have ne : ∀ d : Char, d.toNat < 0x20 → c ≠ d := by
    rintro d hd rfl
    omega
  have eight : c.toNat ≠ 8 := by omega
  have twelve : c.toNat ≠ 12 := by omega
  simp [Json.escape, quote, backslash, ne '\n' (by decide), ne '\r' (by decide),
    ne '\t' (by decide), eight, twelve, Nat.not_lt.2 visible]

/-- A text of literal characters between quotes. -/
theorem toList_quote {s : String} (hs : ∀ c ∈ s.toList, isLiteral c) :
    (Json.quote s).toList = '"' :: (s.toList ++ ['"']) := by
  have same : s.toList.flatMap Json.escape = s.toList := by
    rw [List.flatMap_congr fun c hc => escape_of_isLiteral (hs c hc), List.flatMap_singleton']
  simp [Json.quote, same]

/-- Literal characters are read as they are, up to the quote. -/
theorem lineString?_append (hcs : ∀ c ∈ cs, isLiteral c) (hn : cs.length < n) :
    lineString? '"' true n (cs ++ '"' :: rest) = some (cs, rest) := by
  induction cs generalizing n with
  | nil =>
    cases n with
    | zero => exact absurd hn (Nat.not_lt_zero _)
    | succ n => simp [lineString?]
  | cons c cs ih =>
    cases n with
    | zero => exact absurd hn (Nat.not_lt_zero _)
    | succ n =>
      rw [List.forall_mem_cons] at hcs
      obtain ⟨hc, hcs⟩ := hcs
      simp only [isLiteral, Bool.and_eq_true, decide_eq_true_eq, bne_iff_ne] at hc
      have plain : isPlain c := by simp [isPlain, hc]
      simp [lineString?, hc, plain, ih hcs (Nat.lt_of_succ_lt_succ hn)]

/-- A text of literal characters between quotes is read as it is. -/
theorem string?_quote {s : String} (hs : ∀ c ∈ s.toList, isLiteral c) :
    string? ((Json.quote s).toList ++ '\n' :: rest) = some (s, '\n' :: rest) := by
  -- The quote that ends the text is not one of two more opening marks.
  have short : ['"', '"'].isPrefixOf (s.toList ++ '"' :: '\n' :: rest) = false := by
    cases h : s.toList with
    | nil => rfl
    | cons c cs =>
      have hc := hs c (h ▸ List.mem_cons_self)
      have ne : c ≠ '"' := by
        rintro rfl
        exact absurd hc (by decide)
      simp [List.isPrefixOf, ne.symm]
  have fuel := Nat.lt_succ_of_le (List.prefix_append s.toList ('"' :: '\n' :: rest)).length_le
  have read : lineString? _ _ _ (s.toList ++ '"' :: '\n' :: rest) = some (s.toList, '\n' :: rest) :=
    lineString?_append hs fuel
  rw [toList_quote hs, List.cons_append, List.append_assoc, List.singleton_append, string?]
  simp only [short, decide_true, read]
  simp

/-- Whether a name may be written without quotes. -/
def IsBareName (name : String) : Prop := name ≠ "" ∧ ∀ c ∈ name.toList, isBare c

instance (name : String) : Decidable (IsBareName name) :=
  decidable_of_iff (name ≠ "" ∧ name.toList.all isBare) (and_congr_right' List.all_eq_true)

/-- A bare name has a first character. -/
theorem IsBareName.toList_eq_cons (hname : IsBareName name) :
    ∃ d ds, name.toList = d :: ds ∧ isBare d := by
  obtain ⟨hne, hbare⟩ := hname
  cases h : name.toList with
  | nil => exact absurd (String.toList_inj.1 h) hne
  | cons d ds => exact ⟨d, ds, rfl, hbare d (h ▸ List.mem_cons_self)⟩

/-- A bare name up to a character that ends it. -/
theorem simpleKey?_append (hname : IsBareName name) (hc : isBare c = false) :
    simpleKey? (name.toList ++ c :: rest) = some (name, c :: rest) := by
  have hbare := hname.2
  have taken : (name.toList ++ c :: rest).takeWhile isBare = name.toList := by
    rw [List.takeWhile_append_of_pos hbare]
    simp [hc]
  have left : (name.toList ++ c :: rest).dropWhile isBare = c :: rest := by
    rw [List.dropWhile_append_of_pos hbare]
    simp [hc]
  obtain ⟨d, ds, h, hd⟩ := hname.toList_eq_cons
  have unquoted : ¬ (d = '"' ∨ d = '\'') := by
    rintro (rfl | rfl) <;> exact absurd hd (by decide)
  rw [h, List.cons_append] at taken left ⊢
  rw [simpleKey?, if_neg unquoted, taken, left]
  simp [← h]

/-- A bare name, up to a character that ends it, is a path of one part. -/
theorem keyPath?_append (hname : IsBareName name) (hc : isBare c = false)
    (hdot : (skipBlanks (c :: rest)).head? ≠ some '.') :
    keyPath? (name.toList ++ c :: rest) = some (⟨[], name⟩, skipBlanks (c :: rest)) := by
  obtain ⟨d, ds, h, hd⟩ := hname.toList_eq_cons
  have nonblank : isBlank d = false := by
    cases hblank : isBlank d with
    | false => rfl
    | true =>
      simp only [isBlank, decide_eq_true_eq] at hblank
      rcases hblank with rfl | rfl <;> exact absurd hd (by decide)
  have start : skipBlanks (name.toList ++ c :: rest) = name.toList ++ c :: rest := by
    rw [h, List.cons_append, skipBlanks_of_not nonblank]
  have one : ∀ n, keys? (n + 1) (name.toList ++ c :: rest) =
      some ([name], skipBlanks (c :: rest)) := by
    intro n
    simp only [keys?, start, simpleKey?_append hname hc, Option.bind_eq_bind, Option.bind_some]
    split
    case h_1 _ more hmore => simp [hmore] at hdot
    case h_2 => rfl
  simp [keyPath?, one, nestingLimit]

/-! ### Values -/

variable {depth : Nat}

/-- A truth value is read from its text. -/
theorem value?_bool (b : Bool) : value? (n + 1) depth
    (skipBlanks ((toString b).toList ++ '\n' :: rest)) = some (.bool b, '\n' :: rest) := by
  cases b <;> simp [value?, skipBlanks, isBlank, Json.word?, toString]

/-- A number that fits into 63 bits is read from its text. -/
theorem value?_nat {m : Nat} (hm : m < 2 ^ 63) : value? (n + 1) depth
    (skipBlanks ((toString (Int.ofNat m)).toList ++ '\n' :: rest)) =
      some (.int m, '\n' :: rest) := by
  have text : (toString (Int.ofNat m)).toList = Nat.toDigits 10 m := Nat.toList_repr
  have number : numeric? (Nat.toDigits 10 m ++ '\n' :: rest) = _ := numeric?_toDigits hm
  obtain ⟨d, ds, eq, hd, -, -⟩ := toDigits_eq_cons m
  rw [text]
  rw [eq, List.cons_append] at number ⊢
  have ne : ∀ c : Char, ¬ c.isDigit → d ≠ c := by
    rintro c hc rfl
    exact hc hd
  have nonblank : isBlank d = false := by simp [isBlank, ne ' ' (by decide), ne '\t' (by decide)]
  rw [skipBlanks_of_not nonblank]
  simp only [value?, ne '"' (by decide), ne '\'' (by decide), ne '[' (by decide),
    ne '\x7b' (by decide), ne 't' (by decide), ne 'f' (by decide), or_self, if_false, number]

/-- A text of literal characters is read from its quoted form. -/
theorem value?_str {s : String} (hs : ∀ c ∈ s.toList, isLiteral c) : value? (n + 1) depth
    (skipBlanks ((Json.quote s).toList ++ '\n' :: rest)) = some (.str s, '\n' :: rest) := by
  have text : string? ((Json.quote s).toList ++ '\n' :: rest) = _ := string?_quote hs
  rw [toList_quote hs, List.cons_append] at text ⊢
  rw [skipBlanks_of_not (by decide)]
  simp only [value?, true_or, if_true, text]
  rfl

end texts

end Toml

end JitBroker
