import Mathlib.Data.List.Infix
import JitBroker.Statistics.ShortName

/-!
# What is left of a name

A short name has fewer characters than its budget. What is cut off depends on the room that the
method name leaves for the class (`NoRoom`): if there is none, the class is left out, and the method
name loses what it must at its end; otherwise the class name loses what it must at its beginning.

* `shortNameChars_of_noRoom` and `shortNameChars_of_room`: the name in the two cases, without the
  steps by which it is computed;
* `shortNameChars?_eq`: no difference on the way is taken of a number that is too small;
* `ShortNameOf`: what a short name is, without a word of how it is computed;
* `shortName_cut`: the name that is computed is the only one like that.
-/

namespace JitBroker

variable {α : Type} {p : List α → Prop} {l l' : List α} {budget : Nat}

/-! ### Longest lists -/

/-- A list has a property, and no longer one has it. -/
structure Longest (p : List α → Prop) (l : List α) : Prop where
  /-- It has the property. -/
  holds : p l
  /-- Those that have it are no longer. -/
  length_le : ∀ {l' : List α}, p l' → l'.length ≤ l.length

theorem Longest.length_eq (h : Longest p l) (h' : Longest p l') : l.length = l'.length :=
  Nat.le_antisymm (h'.length_le h.holds) (h.length_le h'.holds)

/-- The first elements are the longest beginning of their number. -/
theorem longest_take (l : List α) (n : Nat) :
    Longest (fun pre => pre <+: l ∧ pre.length ≤ n) (l.take n) where
  holds := ⟨List.take_prefix n l, List.length_take_le n l⟩
  length_le := fun ⟨hpre, hlength⟩ => by
    rw [List.length_take]
    exact Nat.le_min.2 ⟨hlength, hpre.length_le⟩

/-- The last elements are the longest end of their number. -/
theorem longest_drop (l : List α) (n : Nat) :
    Longest (fun post => post <:+ l ∧ post.length ≤ n) (l.drop (l.length - n)) where
  holds := ⟨List.drop_suffix _ l, by rw [List.length_drop]; omega⟩
  length_le := fun ⟨hpost, hlength⟩ => by
    have := hpost.length_le
    rw [List.length_drop]
    omega

/-! ### Room for the class -/

/-- A method name leaves no room for its class: it takes all characters that the budget allows, or
all but one, in which case only the blank would be left of a class that has a name. -/
def NoRoom (className method : List α) (budget : Nat) : Prop :=
  budget < method.length + 2 ∨ budget = method.length + 2 ∧ className ≠ []

/-- Then the name is the beginning of the method name. -/
theorem shortNameChars_of_noRoom {className method : List Char}
    (h : NoRoom className method budget) :
    shortNameChars className method budget = method.take (budget - 1) := by
  unfold shortNameChars
  rcases h with h | ⟨h, hclass⟩
  · rw [if_pos h]
  · have := List.length_pos_of_ne_nil hclass
    rw [if_neg (by omega), if_pos (by omega)]
    simp only
    rw [if_pos (by omega), List.take_of_length_le (by omega)]

/-- Otherwise it is the end of the class name, a blank and the method name. -/
theorem shortNameChars_of_room {className method : List Char}
    (h : ¬NoRoom className method budget) :
    shortNameChars className method budget =
      className.drop (className.length - (budget - (method.length + 2))) ++ ' ' :: method := by
  rw [NoRoom, not_or, not_and_not_right] at h
  obtain ⟨hroom, hclass⟩ := h
  unfold shortNameChars
  rw [if_neg hroom]
  split
  · -- The class name is not empty, so the room that is left is for some of it.
    have hkeep : budget - method.length - 2 ≠ 0 := by
      intro hkeep
      have hempty := congrArg List.length (hclass (by omega))
      rw [List.length_nil] at hempty
      omega
    simp only
    rw [if_neg hkeep, Nat.sub_sub]
  · rw [show className.length - (budget - (method.length + 2)) = 0 by omega, List.drop_zero]

/-! ### Differences -/

/-- The difference of two numbers, if the first one is large enough. -/
def difference? (m n : Nat) : Option Nat := if n ≤ m then some (m - n) else none

theorem difference?_of_le {m n : Nat} (h : n ≤ m) : difference? m n = some (m - n) := if_pos h

/-- The short name, if each difference on the way is taken of a number that is large enough. Only
the budget less one may fall below zero, and is nothing then. -/
def shortNameChars? (className method : List Char) (budget : Nat) : Option (List Char) :=
  if budget < method.length + 2 then some (method.take (budget - 1))
  else if budget < className.length + method.length + 2 then do
    let room ← difference? budget method.length
    let keep ← difference? room 2
    if keep = 0 then return method
    let dropped ← difference? className.length keep
    return className.drop dropped ++ ' ' :: method
  else some (className ++ ' ' :: method)

/-- They all are. -/
theorem shortNameChars?_eq (className method : List Char) (budget : Nat) :
    shortNameChars? className method budget = some (shortNameChars className method budget) := by
  unfold shortNameChars? shortNameChars
  split
  · rfl
  · split
    · rw [difference?_of_le (by omega), Option.bind_eq_bind, Option.bind_some,
        difference?_of_le (by omega), Option.bind_some]
      simp only
      split
      · rfl
      · rw [difference?_of_le (by omega)]
        rfl
    · rfl

/-! ### Short names -/

/-- What the short name of a method is. -/
structure ShortNameOf (className method : String) (budget : Nat) (name : String) : Prop where
  /-- It has fewer characters than the budget, and none if that is nothing. -/
  fits : name.length ≤ budget - 1
  /-- If there is no room for the class, it is the longest beginning of the method name that
  fits. -/
  cut : NoRoom className.toList method.toList budget →
    Longest (fun pre => pre <+: method.toList ∧ pre.length ≤ budget - 1) name.toList
  /-- Otherwise it is the longest end of the class name with which a blank and the method name fit,
  the blank and the method name. -/
  joined : ¬NoRoom className.toList method.toList budget →
    ∃ post, name.toList = post ++ ' ' :: method.toList ∧
      Longest (fun post => post <:+ className.toList ∧
        (post ++ ' ' :: method.toList).length ≤ budget - 1) post

namespace ShortNameOf

variable {className method other name name' : String}

/-- If there is no room for the class, nothing depends on what it is. -/
theorem classless (h : ShortNameOf className method budget name)
    (hroom : NoRoom className.toList method.toList budget)
    (hother : NoRoom other.toList method.toList budget) :
    ShortNameOf other method budget name :=
  ⟨h.fits, fun _ => h.cut hroom, fun hnot => absurd hother hnot⟩

/-- The whole class name is there if it fits. -/
theorem whole (h : ShortNameOf className method budget name)
    (hfits : className.length + method.length + 1 ≤ budget - 1) :
    name.toList = className.toList ++ ' ' :: method.toList := by
  have hroom : ¬NoRoom className.toList method.toList budget := by
    rintro (hlt | ⟨heq, hclass⟩)
    · rw [String.length_toList] at hlt
      omega
    · have := List.length_pos_of_ne_nil hclass
      rw [String.length_toList] at heq this
      omega
  obtain ⟨post, hname, hlongest⟩ := h.joined hroom
  have hle := hlongest.length_le ⟨List.suffix_refl _, by
    rw [List.length_append, List.length_cons, String.length_toList, String.length_toList]
    omega⟩
  rw [hname, hlongest.holds.1.eq_of_length_le hle]

/-- There is no more than one short name. -/
theorem unique (h : ShortNameOf className method budget name)
    (h' : ShortNameOf className method budget name') : name = name' := by
  refine String.toList_inj.1 ?_
  by_cases hroom : NoRoom className.toList method.toList budget
  · have hpre := (h.cut hroom).holds.1
    have hpre' := (h'.cut hroom).holds.1
    rw [List.prefix_iff_eq_take.1 hpre, List.prefix_iff_eq_take.1 hpre',
      (h.cut hroom).length_eq (h'.cut hroom)]
  · obtain ⟨post, hname, hpost⟩ := h.joined hroom
    obtain ⟨post', hname', hpost'⟩ := h'.joined hroom
    rw [hname, hname', List.suffix_iff_eq_drop.1 hpost.holds.1,
      List.suffix_iff_eq_drop.1 hpost'.holds.1, hpost.length_eq hpost']

end ShortNameOf

@[simp] theorem toList_shortName (className method : String) (budget : Nat) :
    (shortName className method budget).toList =
      shortNameChars className.toList method.toList budget := String.toList_ofList

/-- What is computed is as it should be. -/
theorem shortNameOf_shortName (className method : String) (budget : Nat) :
    ShortNameOf className method budget (shortName className method budget) := by
  by_cases hroom : NoRoom className.toList method.toList budget
  · have hlongest := longest_take method.toList (budget - 1)
    rw [← shortNameChars_of_noRoom hroom, ← toList_shortName] at hlongest
    refine ⟨?_, fun _ => hlongest, fun hnot => absurd hroom hnot⟩
    rw [← String.length_toList]
    exact hlongest.holds.2
  · have hbudget : method.length + 2 ≤ budget := by
      rw [← String.length_toList]
      exact Nat.not_lt.1 fun hlt => hroom (.inl hlt)
    -- What fits is what is no longer than the room that is left.
    have hfits (post : List Char) : (post ++ ' ' :: method.toList).length ≤ budget - 1 ↔
        post.length ≤ budget - (method.toList.length + 2) := by
      rw [List.length_append, List.length_cons, String.length_toList]
      omega
    have hlongest := longest_drop className.toList (budget - (method.toList.length + 2))
    simp only [← hfits] at hlongest
    have hname := (toList_shortName className method budget).trans (shortNameChars_of_room hroom)
    refine ⟨?_, fun hnot => absurd hnot hroom, fun _ => ⟨_, hname, hlongest⟩⟩
    rw [← String.length_toList, hname]
    exact hlongest.holds.2

/-- For all names and budgets, the short name has fewer characters than the budget, and is the only
name that is cut as it should be. What there is room for is not cut, without room for the class
nothing depends on it, and no difference falls below zero on the way. -/
theorem shortName_cut (className method : String) (budget : Nat) :
    (shortName className method budget).length ≤ budget - 1 ∧
      (∀ name, ShortNameOf className method budget name ↔
        name = shortName className method budget) ∧
      (className.length + method.length + 1 ≤ budget - 1 →
        shortName className method budget = className ++ " " ++ method) ∧
      (NoRoom className.toList method.toList budget →
        ∀ other : String, NoRoom other.toList method.toList budget →
          shortName other method budget = shortName className method budget) ∧
      shortNameChars? className.toList method.toList budget =
        some (shortName className method budget).toList := by
  have hshort := shortNameOf_shortName className method budget
  refine ⟨hshort.fits, fun name => ⟨fun h => h.unique hshort, fun h => h ▸ hshort⟩, fun hfits => ?_,
    fun hroom other hother => ?_, ?_⟩
  · refine String.toList_inj.1 ((hshort.whole hfits).trans ?_)
    simp
  · exact (shortNameOf_shortName other method budget).unique (hshort.classless hroom hother)
  · rw [toList_shortName, shortNameChars?_eq]

example : shortName "Foo" "method" 8 = "method" ∧ shortName "Foo" "method" 9 = "o method" ∧
    shortName "" "method" 8 = " method" := by decide

end JitBroker
