import Mathlib.Data.List.Infix
import Mathlib.Data.List.TakeWhile
import JitBroker.Directive

/-!
# Patterns as globs

What a pattern means is told by its text alone. A name is *obtained* from a text by writing some
other text, maybe none, for each of its stars, and each time another one (`Glob`). A pattern for
methods is split into a part for the class and one for the method (`MethodPattern.Splits`).

Every text is a core with stars around it (`NamePattern.exists_frame`), and it can be read if no
star is left in the core.

* `NamePattern.isSome_parse?_iff`: which texts can be read;
* `NamePattern.accepts_iff_glob`: the names that match are those that are obtained from the text;
* `MethodPattern.globs_of_read`: both of these for methods.
-/

namespace JitBroker

/-- A name is obtained from a text by writing some text for each of its stars. -/
inductive Glob : List Char → List Char → Prop where
  /-- Nothing is left to be written. -/
  | nil : Glob [] []
  /-- A character that is no star is written as it is. -/
  | char {c : Char} {text name : List Char} (hc : c ≠ '*') (h : Glob text name) :
    Glob (c :: text) (c :: name)
  /-- Any text is written for a star. -/
  | star (x : List Char) {text name : List Char} (h : Glob text name) :
    Glob ('*' :: text) (x ++ name)

namespace Glob

variable {p q name : List Char}

theorem append {a b : List Char} (hp : Glob p a) (hq : Glob q b) : Glob (p ++ q) (a ++ b) := by
  induction hp with
  | nil => exact hq
  | char hc _ ih => exact .char hc ih
  | star x _ ih =>
    rw [List.append_assoc]
    exact .star x ih

/-- What is obtained from two texts in a row is what is obtained from each of them. -/
theorem append_iff : Glob (p ++ q) name ↔ ∃ a b, name = a ++ b ∧ Glob p a ∧ Glob q b := by
  constructor
  · intro h
    induction p generalizing name with
    | nil => exact ⟨[], name, rfl, .nil, h⟩
    | cons c p ih =>
      cases h with
      | char hc h =>
        obtain ⟨a, b, rfl, ha, hb⟩ := ih h
        exact ⟨c :: a, b, rfl, .char hc ha, hb⟩
      | star x h =>
        obtain ⟨a, b, rfl, ha, hb⟩ := ih h
        exact ⟨x ++ a, b, (List.append_assoc ..).symm, .star x ha, hb⟩
  · rintro ⟨a, b, rfl, ha, hb⟩
    exact ha.append hb

/-- A text without stars is written as it is. -/
theorem iff_eq (h : '*' ∉ p) : Glob p name ↔ name = p := by
  induction p generalizing name with
  | nil =>
    constructor
    · rintro ⟨⟩
      rfl
    · rintro rfl
      exact .nil
  | cons c p ih =>
    rw [List.mem_cons, not_or] at h
    constructor
    · intro hglob
      cases hglob with
      | char hc hglob => rw [(ih h.2).1 hglob]
      | star => exact absurd rfl h.1
    · rintro rfl
      exact .char (Ne.symm h.1) ((ih h.2).2 rfl)

/-- For one star or more any text may be written. -/
theorem stars_iff (i : Nat) : Glob (List.replicate i '*') name ↔ (i = 0 → name = []) := by
  induction i generalizing name with
  | zero => simp [iff_eq]
  | succ i ih =>
    have hrest : Glob (List.replicate i '*') [] := ih.2 fun _ => rfl
    have hstar := hrest.star name
    rw [List.append_nil] at hstar
    exact ⟨fun _ h => absurd h i.succ_ne_zero, fun _ => hstar⟩

/-- What is obtained from a core with stars around it holds the core, with something before it only
if there are stars before it, and with something after it only if there are stars after it. -/
theorem frame_iff {i j : Nat} {core : List Char} (h : '*' ∉ core) :
    Glob (List.replicate i '*' ++ core ++ List.replicate j '*') name ↔
      ∃ a b, name = a ++ core ++ b ∧ (i = 0 → a = []) ∧ (j = 0 → b = []) := by
  simp only [append_iff, iff_eq h, stars_iff]
  constructor
  · rintro ⟨_, b, rfl, ⟨a, _, rfl, ha, rfl⟩, hb⟩
    exact ⟨a, b, rfl, ha, hb⟩
  · rintro ⟨a, b, rfl, ha, hb⟩
    exact ⟨_, b, rfl, ⟨a, core, rfl, ha, rfl⟩, hb⟩

end Glob

/-! ### Names -/

/-- A core occurs in a text if it stands somewhere in it. -/
theorem occursIn_iff_infix {core text : List Char} : occursIn core text = true ↔ core <:+: text := by
  induction text with
  | nil => rw [occursIn, List.isEmpty_iff, List.infix_nil]
  | cons c text ih =>
    rw [occursIn, Bool.or_eq_true, ih, List.isPrefixOf_iff_prefix, List.infix_cons_iff]

/-- No star of a text stands between two characters that are no stars. -/
def StarsAtEnds (text : List Char) : Prop :=
  ∀ l r, text = l ++ '*' :: r → (∀ c ∈ l, c = '*') ∨ ∀ c ∈ r, c = '*'

namespace NamePattern

variable {text core name : List Char} {i j : Nat}

/-- A text is some stars, followed by one that does not begin with a star. -/
theorem exists_leading (text : List Char) :
    ∃ i, text = List.replicate i '*' ++ text.dropWhile (· == '*') := by
  have hstars : text.takeWhile (· == '*') =
      List.replicate (text.takeWhile (· == '*')).length '*' :=
    List.eq_replicate_of_mem fun c hc =>
      eq_of_beq (List.mem_takeWhile_imp (p := fun c => c == '*') hc)
  exact ⟨_, by rw [← hstars, List.takeWhile_append_dropWhile]⟩

theorem head?_dropWhile_ne (text : List Char) : (text.dropWhile (· == '*')).head? ≠ some '*' := by
  intro h
  have hnot := List.head?_dropWhile_not (· == '*') text
  rw [h] at hnot
  cases hnot

/-- Every text is a core with stars around it, and the core neither begins nor ends with one. -/
theorem exists_frame (text : List Char) :
    (∃ i j, text = List.replicate i '*' ++ trimStars text ++ List.replicate j '*') ∧
      (trimStars text).head? ≠ some '*' ∧ (trimStars text).getLast? ≠ some '*' := by
  obtain ⟨i, hi⟩ := exists_leading text
  obtain ⟨j, hj⟩ := exists_leading (text.dropWhile (· == '*')).reverse
  have hend := congrArg List.reverse hj
  rw [List.reverse_reverse, List.reverse_append, List.reverse_replicate] at hend
  refine ⟨⟨i, j, ?_⟩, ?_, ?_⟩
  · rw [trimStars, List.append_assoc, ← hend, ← hi]
  · -- The core is the beginning of what is left without the leading stars.
    intro hhead
    refine head?_dropWhile_ne text ?_
    rw [hend, List.head?_append, ← trimStars, hhead, Option.some_or]
  · rw [trimStars, List.getLast?_reverse]
    exact head?_dropWhile_ne _

/-- The stars of a text are at its ends if and only if none is left without them. -/
theorem starsAtEnds_iff : StarsAtEnds text ↔ '*' ∉ trimStars text := by
  obtain ⟨⟨i, j, hframe⟩, hhead, hlast⟩ := exists_frame text
  generalize trimStars text = core at hframe hhead hlast
  subst hframe
  constructor
  · -- A star of the core would have to stand at an end of it.
    intro h hmem
    obtain ⟨l, r, rfl⟩ := List.append_of_mem hmem
    rcases h (List.replicate i '*' ++ l) (r ++ List.replicate j '*') (by simp) with hall | hall
    · cases l with
      | nil => exact hhead rfl
      | cons c l => exact hhead (congrArg some (hall c (by simp)))
    · rcases List.eq_nil_or_concat' r with rfl | ⟨r, c, rfl⟩
      · exact hlast (by simp)
      · obtain rfl := hall c (by simp)
        exact hlast (by rw [← List.cons_append, ← List.append_assoc, List.getLast?_concat])
  · -- A star that is not in the core is one of those before it, or of those after it.
    intro hcore l r heq
    rw [List.append_assoc, List.append_eq_append_iff] at heq
    rcases heq with ⟨l, rfl, heq⟩ | ⟨r', hstars, -⟩
    · right
      rw [List.append_eq_append_iff] at heq
      rcases heq with ⟨l', rfl, heq⟩ | ⟨r', rfl, heq⟩
      · exact fun c hc => List.eq_of_mem_replicate (n := j) (heq ▸ by simp [hc])
      · cases r' with
        | nil =>
          refine fun c hc => List.eq_of_mem_replicate (n := j) ?_
          rw [← List.nil_append (List.replicate j '*'), ← heq]
          exact List.mem_cons_of_mem _ hc
        | cons c r' =>
          obtain ⟨rfl, -⟩ := List.cons.inj heq
          exact absurd (List.mem_append_right _ List.mem_cons_self) hcore
    · left
      exact fun c hc => List.eq_of_mem_replicate (n := i) (hstars ▸ List.mem_append_left _ hc)

/-- The pattern of a core with stars before it, or after it, or both. -/
def framed (core : List Char) : Bool → Bool → NamePattern
  | true, true => .holding core
  | true, false => .ending core
  | false, true => .beginning core
  | false, false => .exactly core

/-- What is read from a text whose stars are at its ends. -/
theorem parse?_eq_some (hne : text ≠ []) (hstar : '*' ∉ trimStars text) :
    parse? text = some (if trimStars text = [] then .any
      else framed (trimStars text) (text.head? == some '*') (text.getLast? == some '*')) := by
  have hread : (text.isEmpty || (trimStars text).contains '*') = false := by simp [hne, hstar]
  rw [parse?]
  simp only [hread, Bool.false_eq_true, if_false, List.isEmpty_iff]
  split
  · rfl
  · cases text.head? == some '*' <;> cases text.getLast? == some '*' <;> rfl

/-- A text can be read if it is not empty and its stars are at its ends. -/
theorem isSome_parse?_iff : (parse? text).isSome ↔ text ≠ [] ∧ StarsAtEnds text := by
  rw [starsAtEnds_iff]
  constructor
  · intro h
    by_contra hread
    have hrefused : (text.isEmpty || (trimStars text).contains '*') = true := by
      by_cases hne : text = []
      · rw [hne, List.isEmpty_nil, Bool.true_or]
      · simpa [hne] using hread
    simp only [parse?, hrefused, if_true] at h
    cases h
  · rintro ⟨hne, hstar⟩
    rw [parse?_eq_some hne hstar]
    rfl

/-- A text with a core begins with a star if there are stars before the core. -/
theorem head?_frame (hcore : core ≠ []) (hstar : '*' ∉ core) (i j : Nat) :
    ((List.replicate i '*' ++ core ++ List.replicate j '*').head? == some '*') = (i != 0) := by
  cases i with
  | zero =>
    cases core with
    | nil => exact absurd rfl hcore
    | cons c core =>
      have hc : c ≠ '*' := fun h => hstar (h ▸ List.mem_cons_self)
      simpa using hc
  | succ i => rfl

/-- It ends with a star if there are stars after the core. -/
theorem getLast?_frame (hcore : core ≠ []) (hstar : '*' ∉ core) (i j : Nat) :
    ((List.replicate i '*' ++ core ++ List.replicate j '*').getLast? == some '*') = (j != 0) := by
  have hcore' : core.reverse ≠ [] := by simpa using hcore
  have hrev := head?_frame hcore' (by simpa using hstar) j i
  rw [← List.head?_reverse, List.reverse_append, List.reverse_append, List.reverse_replicate,
    List.reverse_replicate, ← List.append_assoc]
  exact hrev

/-- The names that match a pattern that was read are those that are obtained from its text. -/
theorem accepts_iff_glob {p : NamePattern} (h : parse? text = some p) :
    p.accepts name = true ↔ Glob text name := by
  have hread : text ≠ [] ∧ '*' ∉ trimStars text := by
    rw [← starsAtEnds_iff, ← isSome_parse?_iff, h]
    rfl
  obtain ⟨hne, hstar⟩ := hread
  obtain ⟨⟨i, j, hframe⟩, -, -⟩ := exists_frame text
  rw [parse?_eq_some hne hstar, Option.some.injEq] at h
  generalize trimStars text = core at hframe hstar h
  subst hframe
  rw [Glob.frame_iff hstar]
  by_cases hcore : core = []
  · -- Only stars, and at least one: the whole name is written for one of them.
    subst hcore
    subst h
    refine ⟨fun _ => ?_, fun _ => rfl⟩
    by_cases hi : i = 0
    · refine ⟨[], name, rfl, fun _ => rfl, ?_⟩
      rintro rfl
      exact absurd (by rw [hi]; rfl) hne
    · exact ⟨name, [], by simp, fun h => absurd h hi, fun _ => rfl⟩
  · rw [if_neg hcore, head?_frame hcore hstar, getLast?_frame hcore hstar] at h
    subst h
    cases i with
    | zero =>
      cases j with
      | zero => simp [framed, accepts]
      | succ j =>
        rw [show framed core (0 != 0) (j + 1 != 0) = .beginning core from rfl, accepts,
          List.isPrefixOf_iff_prefix]
        constructor
        · rintro ⟨b, rfl⟩
          exact ⟨[], b, rfl, fun _ => rfl, nofun⟩
        · rintro ⟨a, b, rfl, ha, -⟩
          obtain rfl := ha rfl
          exact ⟨b, rfl⟩
    | succ i =>
      cases j with
      | zero =>
        rw [show framed core (i + 1 != 0) (0 != 0) = .ending core from rfl, accepts,
          List.isSuffixOf_iff_suffix]
        constructor
        · rintro ⟨a, rfl⟩
          exact ⟨a, [], by simp, nofun, fun _ => rfl⟩
        · rintro ⟨a, b, rfl, -, hb⟩
          obtain rfl := hb rfl
          exact ⟨a, by simp⟩
      | succ j =>
        rw [show framed core (i + 1 != 0) (j + 1 != 0) = .holding core from rfl, accepts,
          occursIn_iff_infix]
        constructor
        · rintro ⟨a, b, rfl⟩
          exact ⟨a, b, rfl, nofun, nofun⟩
        · rintro ⟨a, b, rfl, -, -⟩
          exact ⟨a, b, rfl⟩

end NamePattern

/-! ### The two parts of a text -/

/-- Two colons stand in a text. -/
def HasColons (text : List Char) : Prop := ∃ l r, text = l ++ ':' :: ':' :: r

/-- The text before and after the first two colons. -/
structure SplitsAtColons (text l r : List Char) : Prop where
  /-- Two colons stand between them. -/
  split : text = l ++ ':' :: ':' :: r
  /-- None stand earlier. -/
  first : ∀ {l' r' : List Char}, text = l' ++ ':' :: ':' :: r' → l.length ≤ l'.length

/-- The text before and after the last dot. -/
structure SplitsAtDot (text l r : List Char) : Prop where
  /-- A dot stands between them. -/
  split : text = l ++ '.' :: r
  /-- None stands later. -/
  last : '.' ∉ r

theorem hasColons_cons {c : Char} {text : List Char} :
    HasColons (c :: text) ↔ (c = ':' ∧ text.head? = some ':') ∨ HasColons text := by
  constructor
  · rintro ⟨_ | ⟨c, l⟩, r, h⟩
    · obtain ⟨rfl, rfl⟩ := List.cons.inj h
      exact .inl ⟨rfl, rfl⟩
    · exact .inr ⟨l, r, (List.cons.inj h).2⟩
  · rintro (⟨rfl, h⟩ | ⟨l, r, rfl⟩)
    · obtain ⟨r, rfl⟩ := List.head?_eq_some_iff.1 h
      exact ⟨[], r, rfl⟩
    · exact ⟨c :: l, r, rfl⟩

theorem splitAtColons_eq_none_iff {text : List Char} : splitAtColons text = none ↔ ¬ HasColons text := by
  fun_induction splitAtColons text with
  | case1 rest => simpa using ⟨[], rest, rfl⟩
  | case2 c rest hne ih =>
    rw [Option.map_eq_none_iff, ih, hasColons_cons, not_or]
    refine ⟨fun h => ⟨?_, h⟩, And.right⟩
    rintro ⟨rfl, hhead⟩
    obtain ⟨r, rfl⟩ := List.head?_eq_some_iff.1 hhead
    exact hne r rfl rfl
  | case3 => simp [HasColons]

/-- The text is split at the first two colons. -/
theorem splitAtColons_eq_some_iff {text l r : List Char} :
    splitAtColons text = some (l, r) ↔ SplitsAtColons text l r := by
  fun_induction splitAtColons text generalizing l r with
  | case1 rest =>
    constructor
    · intro h
      obtain ⟨rfl, rfl⟩ := Prod.mk.inj (Option.some.inj h)
      exact ⟨rfl, fun _ => Nat.zero_le _⟩
    · intro h
      have hnil : l.length ≤ ([] : List Char).length := h.first rfl
      obtain rfl := List.eq_nil_of_length_eq_zero (Nat.le_zero.1 hnil)
      obtain rfl : rest = r := by simpa using h.split
      rfl
  | case2 c rest hne ih =>
    rw [Option.map_eq_some_iff]
    constructor
    · rintro ⟨⟨l', r'⟩, hsplit, heq⟩
      obtain ⟨rfl, rfl⟩ := Prod.mk.inj heq
      obtain ⟨rfl, hfirst⟩ := ih.1 hsplit
      refine ⟨rfl, fun {l₂ r₂} h => ?_⟩
      cases l₂ with
      | nil =>
        obtain ⟨rfl, hcolon⟩ := List.cons.inj h
        exact (hne _ rfl hcolon).elim
      | cons c' l₂ => exact Nat.succ_le_succ (hfirst (List.cons.inj h).2)
    · rintro ⟨h, hfirst⟩
      cases l with
      | nil =>
        obtain ⟨rfl, hcolon⟩ := List.cons.inj h
        exact (hne _ rfl hcolon).elim
      | cons c' l =>
        obtain ⟨rfl, rfl⟩ := List.cons.inj h
        refine ⟨(l, r), ih.2 ⟨rfl, fun {l₂ r₂} h => ?_⟩, rfl⟩
        have hcons : c :: (l ++ ':' :: ':' :: r) = (c :: l₂) ++ ':' :: ':' :: r₂ := congrArg (c :: ·) h
        exact Nat.le_of_succ_le_succ (hfirst hcons)
  | case3 => exact ⟨nofun, fun h => by simpa using h.split⟩

theorem splitAtLastDot_eq_none_iff {text : List Char} : splitAtLastDot text = none ↔ '.' ∉ text := by
  fun_induction splitAtLastDot text <;> simp_all [eq_comm]

/-- The text is split at the last dot. -/
theorem splitAtLastDot_eq_some_iff {text l r : List Char} :
    splitAtLastDot text = some (l, r) ↔ SplitsAtDot text l r := by
  fun_induction splitAtLastDot text generalizing l r with
  | case1 => exact ⟨nofun, fun h => by simpa using h.split⟩
  | case2 c rest l' r' hsplit ih =>
    obtain ⟨hrest, hlast⟩ := ih.1 hsplit
    constructor
    · intro h
      obtain ⟨rfl, rfl⟩ := Prod.mk.inj (Option.some.inj h)
      exact ⟨congrArg (c :: ·) hrest, hlast⟩
    · rintro ⟨h, hlast'⟩
      cases l with
      | nil =>
        obtain ⟨rfl, rfl⟩ := List.cons.inj h
        exact absurd (hrest ▸ List.mem_append_right _ List.mem_cons_self) hlast'
      | cons c' l =>
        obtain ⟨rfl, hdot⟩ := List.cons.inj h
        have hsame := hsplit.symm.trans (ih.2 ⟨hdot, hlast'⟩)
        obtain ⟨rfl, rfl⟩ := Prod.mk.inj (Option.some.inj hsame)
        rfl
  | case3 rest hsplit ih =>
    rw [splitAtLastDot_eq_none_iff] at hsplit
    constructor
    · intro h
      obtain ⟨rfl, rfl⟩ := Prod.mk.inj (Option.some.inj h)
      exact ⟨rfl, hsplit⟩
    · rintro ⟨h, -⟩
      cases l with
      | nil => rw [(List.cons.inj h).2]
      | cons c l =>
        exact absurd ((List.cons.inj h).2 ▸ List.mem_append_right _ List.mem_cons_self) hsplit
  | case4 c rest hsplit hc ih =>
    refine ⟨nofun, ?_⟩
    rintro ⟨h, -⟩
    rw [splitAtLastDot_eq_none_iff] at hsplit
    cases l with
    | nil => exact absurd (List.cons.inj h).1 hc
    | cons c' l =>
      exact absurd ((List.cons.inj h).2 ▸ List.mem_append_right _ List.mem_cons_self) hsplit

namespace MethodPattern

/-- A text falls into these two parts: at its first two colons or, if it has none, at its last
dot. -/
def Splits (text l r : List Char) : Prop :=
  SplitsAtColons text l r ∨ ¬ HasColons text ∧ SplitsAtDot text l r

theorem split_eq_some_iff {text l r : List Char} : split text = some (l, r) ↔ Splits text l r := by
  rw [Splits, split, ← splitAtColons_eq_some_iff, ← splitAtColons_eq_none_iff,
    ← splitAtLastDot_eq_some_iff]
  cases splitAtColons text <;> simp

/-- A part of a text can be read. -/
def IsPart (part : List Char) : Prop := part ≠ [] ∧ StarsAtEnds part

variable {text : String} {p : MethodPattern} {l r : List Char}

theorem read_eq_ok_iff : read text = .ok p ↔
    ∃ l r, Splits text.toList l r ∧ NamePattern.parse? l = some p.className ∧
      NamePattern.parse? r = some p.method := by
  have hread : read text = .ok p ↔ parse? text.toList = some p := by
    rw [read]
    cases parse? text.toList <;> simp
  rw [hread]
  simp only [parse?, Option.bind_eq_bind, Option.bind_eq_some_iff, Option.pure_def,
    Option.some.injEq, Prod.exists, split_eq_some_iff]
  constructor
  · rintro ⟨l, r, hsplit, c, hc, m, hm, rfl⟩
    exact ⟨l, r, hsplit, hc, hm⟩
  · rintro ⟨l, r, hsplit, hc, hm⟩
    exact ⟨l, r, hsplit, _, hc, _, hm, rfl⟩

/-- A text can be read if and only if it falls into two parts, neither of them empty nor with a star
between two characters that are no stars; and then a method matches if and only if the names of its
class and its own are obtained from the parts. -/
theorem globs_of_read (text : String) :
    ((∃ p, read text = .ok p) ↔ ∃ l r, Splits text.toList l r ∧ IsPart l ∧ IsPart r) ∧
    ∀ {p : MethodPattern} {l r : List Char}, read text = .ok p → Splits text.toList l r →
      ∀ className method : List Char,
        p.accepts className method = true ↔ Glob l className ∧ Glob r method := by
  constructor
  · constructor
    · rintro ⟨p, hp⟩
      obtain ⟨l, r, hsplit, hl, hr⟩ := read_eq_ok_iff.1 hp
      exact ⟨l, r, hsplit, NamePattern.isSome_parse?_iff.1 (hl ▸ rfl),
        NamePattern.isSome_parse?_iff.1 (hr ▸ rfl)⟩
    · rintro ⟨l, r, hsplit, hl, hr⟩
      obtain ⟨c, hc⟩ := Option.isSome_iff_exists.1 (NamePattern.isSome_parse?_iff.2 hl)
      obtain ⟨m, hm⟩ := Option.isSome_iff_exists.1 (NamePattern.isSome_parse?_iff.2 hr)
      exact ⟨⟨c, m⟩, read_eq_ok_iff.2 ⟨l, r, hsplit, hc, hm⟩⟩
  · intro p l r hp hsplit className method
    obtain ⟨l', r', hsplit', hl, hr⟩ := read_eq_ok_iff.1 hp
    have hparts := (split_eq_some_iff.2 hsplit).symm.trans (split_eq_some_iff.2 hsplit')
    obtain ⟨rfl, rfl⟩ := Prod.mk.inj (Option.some.inj hparts)
    rw [accepts, Bool.and_eq_true, NamePattern.accepts_iff_glob hl, NamePattern.accepts_iff_glob hr]

/-- A text without colons is split at its dot; the stars around `Cache` stand for any texts, and the
one after `get` for the end of the name. -/
theorem globs_of_read_cache : ∃ p, read "*Cache*.get*" = .ok p ∧
    Splits "*Cache*.get*".toList "*Cache*".toList "get*".toList ∧
    (∀ className method : List Char, p.accepts className method = true ↔
      Glob "*Cache*".toList className ∧ Glob "get*".toList method) ∧
    p.accepts "CodeCache".toList "getOrAdd".toList = true := by
  have hread : read "*Cache*.get*" = .ok ⟨.holding "Cache".toList, .beginning "get".toList⟩ := by
    decide
  have hsplit : Splits "*Cache*.get*".toList "*Cache*".toList "get*".toList :=
    split_eq_some_iff.1 (by decide)
  exact ⟨_, hread, hsplit, (globs_of_read _).2 hread hsplit, by decide⟩

end MethodPattern

end JitBroker
