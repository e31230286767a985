import JitBroker.Proofs.Directive.Globs

/-!
# Patterns read back

A pattern is printed with two colons between its parts, whichever separator it was read with, and
with one star for each run of stars. The printed part is the part of the text that was read, less
some of its stars, and reads as the same (`NamePattern.parse?_toChars`). It has two colons in a row
only if that part has (`NamePattern.toChars_infix`), and ends with the same character
(`NamePattern.getLast?_toChars`).

So the printed text falls into the printed parts again, unless the first of them ends with a colon:
then its first two colons stand one character earlier. A text with two colons in a row has no such
part, but a text that is split at its dot may have one.

* `MethodPattern.splitsAtColons_of_getLast?`, `MethodPattern.splitsAtColons_of_concat`: where two
  parts with two colons between them are split;
* `MethodPattern.printed_of_read`: which patterns read back.
-/

namespace JitBroker

namespace NamePattern

variable {text core : List Char} {p : NamePattern} {i j : Nat}

theorem dropWhile_frame (hcore : core ≠ []) (hstar : '*' ∉ core) (i : Nat) (rest : List Char) :
    (List.replicate i '*' ++ core ++ rest).dropWhile (· == '*') = core ++ rest := by
  induction i with
  | zero =>
    cases core with
    | nil => exact absurd rfl hcore
    | cons c core =>
      have hc : c ≠ '*' := fun h => hstar (h ▸ List.mem_cons_self)
      rw [List.replicate_zero, List.nil_append, List.cons_append,
        List.dropWhile_cons_of_neg (by simpa using hc)]
  | succ i ih => exact ih

/-- Without the stars around it the core is left. -/
theorem trimStars_frame (hcore : core ≠ []) (hstar : '*' ∉ core) (i j : Nat) :
    trimStars (List.replicate i '*' ++ core ++ List.replicate j '*') = core := by
  have hcore' : core.reverse ≠ [] := by simpa using hcore
  have hstar' : '*' ∉ core.reverse := by simpa using hstar
  have hend := dropWhile_frame hcore' hstar' j []
  rw [List.append_nil, List.append_nil] at hend
  rw [trimStars, dropWhile_frame hcore hstar, List.reverse_append, List.reverse_replicate, hend,
    List.reverse_reverse]

/-- What is read from a core with stars around it. -/
theorem parse?_frame (hcore : core ≠ []) (hstar : '*' ∉ core) (i j : Nat) :
    parse? (List.replicate i '*' ++ core ++ List.replicate j '*') =
      some (framed core (i != 0) (j != 0)) := by
  have hne : List.replicate i '*' ++ core ++ List.replicate j '*' ≠ [] := by simp [hcore]
  have htrim := trimStars_frame hcore hstar i j
  rw [parse?_eq_some hne (htrim.symm ▸ hstar), htrim, if_neg hcore, head?_frame hcore hstar,
    getLast?_frame hcore hstar]

/-- It is printed with one star where there are some. -/
theorem toChars_framed (core : List Char) (before after : Bool) :
    (framed core before after).toChars =
      List.replicate before.toNat '*' ++ core ++ List.replicate after.toNat '*' := by
  cases before <;> cases after <;> simp [framed, toChars]

/-- A text that can be read is nothing but stars, or a core with stars around it. -/
theorem of_parse? (h : parse? text = some p) :
    (∃ i, text = List.replicate (i + 1) '*' ∧ p = .any) ∨
      ∃ core i j, core ≠ [] ∧ '*' ∉ core ∧ p = framed core (i != 0) (j != 0) ∧
        text = List.replicate i '*' ++ core ++ List.replicate j '*' := by
  have hpart : text ≠ [] ∧ StarsAtEnds text := isSome_parse?_iff.1 (h ▸ rfl)
  obtain ⟨hne, hstar⟩ := hpart
  rw [starsAtEnds_iff] at hstar
  obtain ⟨⟨i, j, hframe⟩, -, -⟩ := exists_frame text
  by_cases hcore : trimStars text = []
  · left
    rw [hcore, List.append_nil, List.replicate_append_replicate] at hframe
    have hpos : i + j ≠ 0 := fun hzero => hne (by rw [hframe, hzero, List.replicate_zero])
    rw [parse?_eq_some hne hstar, if_pos hcore] at h
    exact ⟨i + j - 1, by rw [Nat.sub_add_cancel (Nat.pos_of_ne_zero hpos), ← hframe],
      (Option.some.inj h).symm⟩
  · right
    refine ⟨trimStars text, i, j, hcore, hstar, ?_, hframe⟩
    have hread := parse?_frame hcore hstar i j
    rw [← hframe, h] at hread
    exact Option.some.inj hread

/-- The printed text of a pattern that was read is read as that pattern. -/
theorem parse?_toChars (h : parse? text = some p) : parse? p.toChars = some p := by
  rcases of_parse? h with ⟨-, -, rfl⟩ | ⟨core, i, j, hcore, hstar, rfl, -⟩
  · decide
  · rw [toChars_framed, parse?_frame hcore hstar]
    cases i != 0 <;> cases j != 0 <;> rfl

/-- As many stars as there are, but at most one. -/
theorem replicate_toNat_isPrefix (i : Nat) :
    List.replicate (i != 0).toNat '*' <+: List.replicate i '*' := by
  cases i with
  | zero => exact List.prefix_rfl
  | succ i => exact ⟨List.replicate i '*', rfl⟩

/-- It stands in the text that was read. -/
theorem toChars_infix (h : parse? text = some p) : p.toChars <:+: text := by
  rcases of_parse? h with ⟨i, rfl, rfl⟩ | ⟨core, i, j, -, -, rfl, rfl⟩
  · exact (replicate_toNat_isPrefix (i + 1)).isInfix
  · obtain ⟨after, hafter⟩ := replicate_toNat_isPrefix j
    obtain ⟨before, hbefore⟩ := (replicate_toNat_isPrefix i).reverse
    rw [List.reverse_replicate, List.reverse_replicate] at hbefore
    refine ⟨before, after, ?_⟩
    rw [toChars_framed, ← hbefore, ← hafter]
    simp only [List.append_assoc]

theorem toChars_ne_nil (h : parse? text = some p) : p.toChars ≠ [] := by
  rcases of_parse? h with ⟨-, -, rfl⟩ | ⟨core, i, j, hcore, -, rfl, -⟩
  · simp [toChars]
  · simp [toChars_framed, hcore]

/-- It ends with the same character. -/
theorem getLast?_toChars (h : parse? text = some p) : p.toChars.getLast? = text.getLast? := by
  rcases of_parse? h with ⟨i, rfl, rfl⟩ | ⟨core, i, j, hcore, -, rfl, rfl⟩
  · rw [List.replicate_succ', List.getLast?_concat]
    rfl
  · rw [toChars_framed]
    cases j with
    | zero =>
      obtain ⟨core, c, rfl⟩ := (List.eq_nil_or_concat' core).resolve_left hcore
      simp only [← List.append_assoc, bne_self_eq_false, Bool.toNat_false, List.replicate_zero,
        List.append_nil, List.getLast?_concat]
    | succ j =>
      rw [List.replicate_succ', ← List.append_assoc, List.getLast?_concat]
      exact List.getLast?_concat

end NamePattern

/-! ### Where the printed parts are split -/

namespace MethodPattern

variable {l r : List Char}

/-- Two colons after a text without them, which does not end with a colon either, are the first. -/
theorem splitsAtColons_of_getLast? (hl : ¬ HasColons l) (hlast : l.getLast? ≠ some ':')
    (r : List Char) : SplitsAtColons (l ++ ':' :: ':' :: r) l r := by
  refine ⟨rfl, fun {l' r'} h => ?_⟩
  rw [List.append_eq_append_iff] at h
  rcases h with ⟨x, rfl, -⟩ | ⟨x, rfl, hx⟩
  · rw [List.length_append]
    exact Nat.le_add_right ..
  · -- What the two colons further left leave of `l` is nothing, a colon, or begins with both.
    match x, hx with
    | [], _ => rw [List.append_nil]
    | [_], hx =>
      obtain ⟨rfl, -⟩ := List.cons.inj hx
      exact absurd List.getLast?_concat hlast
    | _ :: _ :: x, hx =>
      obtain ⟨rfl, hrest⟩ := List.cons.inj hx
      obtain ⟨rfl, -⟩ := List.cons.inj hrest
      exact absurd ⟨l', x, rfl⟩ hl

/-- After a text that ends with a colon, the first two colons are this one and the next. -/
theorem splitsAtColons_of_concat (hl : ¬ HasColons (l ++ [':'])) (r : List Char) :
    SplitsAtColons (l ++ [':'] ++ ':' :: ':' :: r) l (':' :: r) := by
  rw [List.append_assoc]
  have hnone : ¬ HasColons l := by
    rintro ⟨a, b, rfl⟩
    exact hl ⟨a, b ++ [':'], by rw [List.append_assoc, List.cons_append, List.cons_append]⟩
  have hlast : l.getLast? ≠ some ':' := by
    intro h
    obtain ⟨l', rfl⟩ := List.getLast?_eq_some_iff.1 h
    exact hl ⟨l', [], List.append_assoc ..⟩
  exact splitsAtColons_of_getLast? hnone hlast (':' :: r)

/-- Neither has the part before the first two colons other ones, nor does it end with a colon. -/
theorem of_splitsAtColons {text : List Char} (h : SplitsAtColons text l r) :
    ¬ HasColons l ∧ l.getLast? ≠ some ':' := by
  constructor
  · rintro ⟨a, b, rfl⟩
    have hearlier : text = a ++ ':' :: ':' :: (b ++ ':' :: ':' :: r) := by
      rw [h.split, List.append_assoc, List.cons_append, List.cons_append]
    have hle := h.first hearlier
    rw [List.length_append, List.length_cons] at hle
    omega
  · intro hlast
    obtain ⟨a, rfl⟩ := List.getLast?_eq_some_iff.1 hlast
    have hearlier : text = a ++ ':' :: ':' :: (':' :: r) := by
      rw [h.split, List.append_assoc, List.singleton_append]
    have hle := h.first hearlier
    rw [List.length_append, List.length_singleton] at hle
    omega

theorem not_hasColons_of_splits {text : List Char} (h : Splits text l r) : ¬ HasColons l := by
  rcases h with h | ⟨hnone, h⟩
  · exact (of_splitsAtColons h).1
  · rintro ⟨a, b, rfl⟩
    exact hnone ⟨a, b ++ '.' :: r, by
      rw [h.split, List.append_assoc, List.cons_append, List.cons_append]⟩

/-- The printed text of a pattern that was read is read as that pattern if and only if the part for
the class does not end with a colon. This is so for every text that has two colons in a row; it
fails for a text without them whose last dot comes after a colon, which is printed with three colons
and split at the first two. -/
theorem printed_of_read {text : String} {p : MethodPattern} (h : read text = .ok p)
    (hsplits : Splits text.toList l r) :
    (read p.text = .ok p ↔ l.getLast? ≠ some ':') ∧
      (HasColons text.toList → read p.text = .ok p) := by
  obtain ⟨l', r', hsplits', hl, hr⟩ := read_eq_ok_iff.1 h
  have hparts := (split_eq_some_iff.2 hsplits).symm.trans (split_eq_some_iff.2 hsplits')
  obtain ⟨rfl, rfl⟩ := Prod.mk.inj (Option.some.inj hparts)
  have hcolons : ¬ HasColons p.className.toChars := by
    rintro ⟨a, b, heq⟩
    obtain ⟨s, t, hst⟩ := NamePattern.toChars_infix hl
    refine not_hasColons_of_splits hsplits ⟨s ++ a, b ++ t, ?_⟩
    rw [← hst, heq]
    simp only [List.append_assoc, List.cons_append]
  have hprint : p.text.toList = p.className.toChars ++ ':' :: ':' :: p.method.toChars :=
    String.toList_ofList
  have hiff : read p.text = .ok p ↔ l.getLast? ≠ some ':' := by
    rw [read_eq_ok_iff, hprint, ← NamePattern.getLast?_toChars hl]
    constructor
    · rintro ⟨c, m, hsplit, hc, -⟩ hlast
      obtain ⟨c', hclass⟩ := List.getLast?_eq_some_iff.1 hlast
      rw [hclass] at hsplit hcolons
      have hfirst := splitsAtColons_of_concat hcolons p.method.toChars
      have hsame := (split_eq_some_iff.2 hsplit).symm.trans (split_eq_some_iff.2 (.inl hfirst))
      obtain ⟨rfl, -⟩ := Prod.mk.inj (Option.some.inj hsame)
      -- The class would be read from a text that ends with a colon too: two of them in a row.
      have hlast' : c.getLast? = some ':' := by
        rw [← NamePattern.getLast?_toChars hc, hclass, List.getLast?_concat]
      obtain ⟨c', rfl⟩ := List.getLast?_eq_some_iff.1 hlast'
      exact hcolons ⟨c', [], List.append_assoc ..⟩
    · intro hlast
      exact ⟨_, _, .inl (splitsAtColons_of_getLast? hcolons hlast _),
        NamePattern.parse?_toChars hl, NamePattern.parse?_toChars hr⟩
  refine ⟨hiff, fun htext => hiff.2 ?_⟩
  rcases hsplits with hsplits | ⟨hnone, -⟩
  · exact (of_splitsAtColons hsplits).2
  · exact absurd htext hnone

/-- A class part that is a colon is printed as three colons: what is left before the first two is
empty, and the text is refused. With a letter before the colon the text is read, as a pattern for
another class. -/
theorem printed_of_read_colon :
    (∃ p, read ":.m" = .ok p ∧ p.text = ":::m" ∧ read ":::m" = .error (.invalidPattern ":::m")) ∧
    ∃ p, read "A:.m" = .ok p ∧ Splits "A:.m".toList "A:".toList "m".toList ∧
      (read p.text = .ok p ↔ "A:".toList.getLast? ≠ some ':') ∧
      read p.text = .ok ⟨.exactly "A".toList, .exactly ":m".toList⟩ := by
  have hread : read "A:.m" = .ok ⟨.exactly "A:".toList, .exactly "m".toList⟩ := by decide
  have hsplits : Splits "A:.m".toList "A:".toList "m".toList := split_eq_some_iff.1 (by decide)
  exact ⟨⟨⟨.exactly ":".toList, .exactly "m".toList⟩, by decide, by decide, by decide⟩,
    ⟨_, hread, hsplits, (printed_of_read hread hsplits).1, by decide⟩⟩

end MethodPattern

end JitBroker
