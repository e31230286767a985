import Mathlib.Algebra.GroupWithZero.Nat
import JitBroker.Table

/-!
# Tables as a whole

Look-up tells what a table says of one record. Two views of all records together are used where a
property is about a sum or about a part of each record:

* `Table.total`: the sum of a measure over the records. Changing one record changes it by the
  difference for that record (`total_modify`);
* `Table.map`: a part of each record. Changing a record in a way that the part does not show changes
  nothing (`map_modify_of_eq`), and any other change is a change of the part (`map_modify`).
-/

namespace JitBroker.Table

variable {α β : Type}

theorem toList_getElem? (t : Table α) (i : Nat) : t.toList[i]? = t[i]? := by
  rw [getElem?_eq, toList, Array.getElem?_toList]

theorem ext_getElem? {t u : Table α} (h : ∀ i : Nat, t[i]? = u[i]?) : t = u := by
  obtain ⟨t⟩ := t
  obtain ⟨u⟩ := u
  exact congrArg mk (Array.ext_getElem? h)

theorem mem_toList_iff {t : Table α} {x : α} : x ∈ t.toList ↔ ∃ i : Nat, t[i]? = some x := by
  rw [List.mem_iff_getElem?]
  simp only [toList_getElem?]

@[simp] theorem toList_add (t : Table α) (x : α) : (t.add x).toList = t.toList ++ [x] := by
  simp [add, toList]

theorem exists_getElem? {t : Table α} {i : Nat} (h : i < t.size) : ∃ x, t[i]? = some x := by
  cases hx : t[i]? with
  | none => exact absurd ((getElem?_eq_none_iff t i).1 hx) (by omega)
  | some x => exact ⟨x, rfl⟩

theorem getElem?_modify_self {t : Table α} {i : Nat} {x : α} (h : t[i]? = some x) (g : α → α) :
    (t.modify i g)[i]? = some (g x) := by
  rw [getElem?_modify, if_pos rfl, h]
  rfl

theorem getElem?_modify_of_ne {t : Table α} {i j : Nat} (h : i ≠ j) (g : α → α) :
    (t.modify i g)[j]? = t[j]? := by
  rw [getElem?_modify, if_neg h]

/-- What is there after a change was there before, or is what it was changed to. -/
theorem exists_of_modify {t : Table α} {i j : Nat} {f : α → α} {y : α}
    (h : (t.modify i f)[j]? = some y) :
    ∃ x, t[j]? = some x ∧ (i ≠ j ∧ y = x ∨ i = j ∧ y = f x) := by
  by_cases hij : i = j
  · rw [getElem?_modify, if_pos hij] at h
    obtain ⟨x, hx, rfl⟩ := Option.map_eq_some_iff.1 h
    exact ⟨x, hx, .inr ⟨hij, rfl⟩⟩
  · rw [getElem?_modify_of_ne hij] at h
    exact ⟨y, h, .inl ⟨hij, rfl⟩⟩

/-- Two changes of a record are one. -/
theorem modify_modify (t : Table α) (i : Nat) (f g : α → α) :
    (t.modify i f).modify i g = t.modify i fun x => g (f x) := by
  refine ext_getElem? fun j => ?_
  simp only [getElem?_modify]
  split
  · rw [Option.map_map]
    rfl
  · rfl

theorem modify_eq_self {t : Table α} {i : Nat} {f : α → α} (h : ∀ x, f x = x) : t.modify i f = t := by
  refine ext_getElem? fun j => ?_
  rw [getElem?_modify]
  split
  · cases t[j]? with
    | none => rfl
    | some x => exact congrArg some (h x)
  · rfl

theorem getElem?_add_self (t : Table α) (x : α) : (t.add x)[t.size]? = some x := by
  rw [getElem?_add, if_pos rfl]

theorem getElem?_add_of_lt {t : Table α} {i : Nat} (h : i < t.size) (x : α) :
    (t.add x)[i]? = t[i]? := by
  rw [getElem?_add, if_neg (by omega)]

/-- Writing what a record is changes nothing. -/
theorem modify_const {t : Table α} {i : Nat} {x : α} (h : t[i]? = some x) :
    (t.modify i fun _ => x) = t := by
  refine ext_getElem? fun j => ?_
  rw [getElem?_modify]
  split
  · rename_i hij
    subst hij
    rw [h]
    rfl
  · rfl

/-- A record stands between those before and those after it, also when it is changed. -/
theorem toList_split {t : Table α} {i : Nat} {x : α} (h : t[i]? = some x) :
    ∃ l r, t.toList = l ++ x :: r ∧ ∀ g, (t.modify i g).toList = l ++ g x :: r := by
  obtain ⟨hi, rfl⟩ := Array.getElem?_eq_some_iff.1 (show t.records[i]? = some x from h)
  refine ⟨t.records.toList.take i, t.records.toList.drop (i + 1), ?_, fun g => ?_⟩
  · rw [toList, ← Array.getElem_toList hi, List.getElem_cons_drop, List.take_append_drop]
  · simp [modify, toList, hi, List.set_eq_take_append_cons_drop]

/-! ### Totals -/

/-- The sum of a measure over the records. -/
def total (t : Table α) (f : α → Nat) : Nat := (t.toList.map f).sum

@[simp] theorem total_empty (f : α → Nat) : (empty : Table α).total f = 0 := rfl

@[simp] theorem total_add (t : Table α) (x : α) (f : α → Nat) :
    (t.add x).total f = t.total f + f x := by
  simp [total]

/-- Changing one record changes a total by what that record measures more or less. -/
theorem total_modify {t : Table α} {i : Nat} {x : α} (h : t[i]? = some x) (g : α → α)
    (f : α → Nat) : (t.modify i g).total f + f x = t.total f + f (g x) := by
  obtain ⟨l, r, hl, hr⟩ := toList_split h
  rw [total, total, hl, hr]
  simp only [List.map_append, List.map_cons, List.sum_append, List.sum_cons]
  omega

theorem le_total {t : Table α} {i : Nat} {x : α} (h : t[i]? = some x) (f : α → Nat) :
    f x ≤ t.total f := by
  obtain ⟨l, r, hl, -⟩ := toList_split h
  rw [total, hl]
  simp only [List.map_append, List.map_cons, List.sum_append, List.sum_cons]
  omega

theorem total_eq_zero_iff {t : Table α} {f : α → Nat} :
    t.total f = 0 ↔ ∀ (i : Nat) (x : α), t[i]? = some x → f x = 0 := by
  simp only [total, List.sum_eq_zero_iff_forall_eq_nat, List.mem_map, mem_toList_iff]
  exact ⟨fun h i x hx => h _ ⟨x, ⟨i, hx⟩, rfl⟩, fun h _ ⟨x, ⟨i, hx⟩, e⟩ => e ▸ h i x hx⟩

/-- Two measures that agree on the records have the same total. -/
theorem total_congr {t : Table α} {f g : α → Nat} (h : ∀ (i : Nat) (x : α), t[i]? = some x → f x = g x) :
    t.total f = t.total g := by
  unfold total
  congr 1
  exact List.map_congr_left fun x hx => by
    obtain ⟨i, hi⟩ := mem_toList_iff.1 hx
    exact h i x hi

/-! ### Parts of the records -/

/-- A part of each record. -/
def map (f : α → β) (t : Table α) : Table β := ⟨t.records.map f⟩

@[simp] theorem getElem?_map (f : α → β) (t : Table α) (i : Nat) : (t.map f)[i]? = t[i]?.map f :=
  show (t.records.map f)[i]? = _ from Array.getElem?_map

@[simp] theorem size_map (f : α → β) (t : Table α) : (t.map f).size = t.size := Array.size_map

@[simp] theorem toList_map (f : α → β) (t : Table α) : (t.map f).toList = t.toList.map f :=
  Array.toList_map

@[simp] theorem map_empty (f : α → β) : (empty : Table α).map f = empty := by
  simp [map, empty]

@[simp] theorem map_add (f : α → β) (t : Table α) (x : α) : (t.add x).map f = (t.map f).add (f x) := by
  refine ext_getElem? fun i => ?_
  rw [getElem?_map, getElem?_add, getElem?_add, size_map, getElem?_map]
  split <;> rfl

/-- A change of a record is a change of its part. -/
theorem map_modify {f : α → β} {g : α → α} {g' : β → β} (h : ∀ x, f (g x) = g' (f x))
    (t : Table α) (i : Nat) : (t.modify i g).map f = (t.map f).modify i g' := by
  refine ext_getElem? fun j => ?_
  rw [getElem?_map, getElem?_modify, getElem?_modify, getElem?_map]
  split
  · cases t[j]? with
    | none => rfl
    | some x => exact congrArg some (h x)
  · rfl

/-- A change of a record that is known is a change of its part to a known one. -/
theorem map_modify_const {f : α → β} {t : Table α} {i : Nat} {x : α} (h : t[i]? = some x)
    (g : α → α) : (t.modify i g).map f = (t.map f).modify i fun _ => f (g x) := by
  refine ext_getElem? fun j => ?_
  rw [getElem?_map, getElem?_modify, getElem?_modify, getElem?_map]
  split
  · rename_i hij
    subst hij
    rw [h]
    rfl
  · rfl

/-- A change that the part does not show changes nothing. -/
theorem map_modify_of_eq {f : α → β} {g : α → α} (h : ∀ x, f (g x) = f x) (t : Table α) (i : Nat) :
    (t.modify i g).map f = t.map f := by
  refine ext_getElem? fun j => ?_
  rw [getElem?_map, getElem?_modify, getElem?_map]
  split
  · cases t[j]? with
    | none => rfl
    | some x => exact congrArg some (h x)
  · rfl

/-- Neither does a change that does not show in the record that is there. -/
theorem map_modify_of_getElem? {f : α → β} {g : α → α} {t : Table α} {i : Nat} {x : α}
    (h : t[i]? = some x) (hg : f (g x) = f x) : (t.modify i g).map f = t.map f := by
  refine ext_getElem? fun j => ?_
  rw [getElem?_map, getElem?_modify, getElem?_map]
  split
  · rename_i hij
    subst hij
    rw [h, Option.map_some, Option.map_some, hg, Option.map_some]
  · rfl

/-- A total of a part of the records is one of the records. -/
theorem total_map (t : Table α) (f : α → β) (g : β → Nat) :
    (t.map f).total g = t.total fun x => g (f x) := by
  simp [total, Function.comp_def]

/-- A total of sums is the sum of the totals. -/
theorem total_sum (t : Table α) (f g : α → Nat) :
    (t.total fun x => f x + g x) = t.total f + t.total g := by
  rw [total, total, total]
  induction t.toList with
  | nil => rfl
  | cons x l ih =>
    simp only [List.map_cons, List.sum_cons, ih]
    omega

/-- The number of records with a property is a total. -/
theorem total_toNat (t : Table α) (p : α → Bool) :
    (t.total fun x => (p x).toNat) = t.toList.countP p := by
  rw [total]
  induction t.toList with
  | nil => rfl
  | cons x l ih =>
    rw [List.map_cons, List.sum_cons, List.countP_cons, ih, Nat.add_comm]
    cases p x <;> rfl

/-- Two records measure at most as much as all. -/
theorem add_le_total {t : Table α} {i j : Nat} {x y : α} (hi : t[i]? = some x) (hj : t[j]? = some y)
    (h : i ≠ j) (f : α → Nat) : f x + f y ≤ t.total f := by
  have htotal : (t.map f).total id = t.total f := t.total_map f id
  have hzero := total_modify (show (t.map f)[i]? = some (f x) by simp [hi]) (fun _ => 0) id
  have hle := le_total (t := (t.map f).modify i fun _ => 0) (i := j) (x := f y)
    (by rw [getElem?_modify_of_ne h, getElem?_map, hj]; rfl) id
  simp only [id_eq] at hzero hle
  omega

/-- A total does not change with what it does not measure. -/
theorem total_modify_of_eq {f : α → Nat} {g : α → α} (h : ∀ x, f (g x) = f x) (t : Table α)
    (i : Nat) : (t.modify i g).total f = t.total f := by
  have hmap := congrArg Table.toList (map_modify_of_eq h t i)
  rw [toList_map, toList_map] at hmap
  rw [total, total, hmap]

end JitBroker.Table
