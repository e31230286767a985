/-!
# Tables of numbered records

A table holds records numbered from zero in the order in which they were added. A number, once
given, stays with its record for good: records are changed in place and never removed. The broker
keeps its classes, methods, tasks and workers, and the system its threads, in such tables, and
refers to them by number.

Each operation is described through look-up:

* `getElem?_add`: an addition answers at the next free number and nowhere else;
* `getElem?_modify`: a change touches one record.
-/

namespace JitBroker

/-- Records numbered from zero in the order they were added. -/
structure Table (α : Type) where
  /-- The records by number. -/
  records : Array α
  deriving Repr, DecidableEq

namespace Table

variable {α : Type}

/-- The table without records. -/
def empty : Table α := ⟨#[]⟩

instance : Inhabited (Table α) := ⟨empty⟩

/-- How many records the table holds, which is also the number the next one gets. -/
def size (t : Table α) : Nat := t.records.size

/-- The record numbered `i`. -/
def get? (t : Table α) (i : Nat) : Option α := t.records[i]?

instance : GetElem? (Table α) Nat α (fun t i => i < t.size) where
  getElem t i h := t.records[i]
  getElem? t i := t.get? i

/-- The table with one more record, numbered `t.size`. -/
def add (t : Table α) (x : α) : Table α := ⟨t.records.push x⟩

/-- The table with the record numbered `i` changed by `f`, if there is one. -/
def modify (t : Table α) (i : Nat) (f : α → α) : Table α :=
  match t.records[i]? with
  | some x => ⟨t.records.setIfInBounds i (f x)⟩
  | none => t

/-- The records in the order of their numbers. -/
def toList (t : Table α) : List α := t.records.toList

/-! ### Look-up -/

theorem getElem?_eq (t : Table α) (i : Nat) : t[i]? = t.records[i]? := rfl

@[simp] theorem getElem?_empty (i : Nat) : (empty : Table α)[i]? = none := rfl

@[simp] theorem size_empty : (empty : Table α).size = 0 := rfl

@[simp] theorem size_add (t : Table α) (x : α) : (t.add x).size = t.size + 1 := by
  simp [add, size]

@[simp] theorem size_modify (t : Table α) (i : Nat) (f : α → α) :
    (t.modify i f).size = t.size := by
  unfold modify
  split <;> simp [size]

theorem getElem?_add (t : Table α) (x : α) (j : Nat) :
    (t.add x)[j]? = if j = t.size then some x else t[j]? :=
  show (t.records.push x)[j]? = _ from Array.getElem?_push

theorem getElem?_modify (t : Table α) (i : Nat) (f : α → α) (j : Nat) :
    (t.modify i f)[j]? = if i = j then t[j]?.map f else t[j]? := by
  rw [getElem?_eq, getElem?_eq, modify]
  cases h : t.records[i]? with
  | none =>
    by_cases hij : i = j
    · subst hij
      simp [h]
    · simp [hij]
  | some x =>
    obtain ⟨hi, rfl⟩ := Array.getElem?_eq_some_iff.1 h
    by_cases hij : i = j
    · subst hij
      simp [hi]
    · simp [hij]

theorem getElem?_eq_none_iff (t : Table α) (i : Nat) : t[i]? = none ↔ t.size ≤ i :=
  show t.records[i]? = none ↔ _ from Array.getElem?_eq_none_iff

theorem lt_size_of_getElem? {t : Table α} {i : Nat} {x : α} (h : t[i]? = some x) : i < t.size := by
  obtain ⟨hi, _⟩ := Array.getElem?_eq_some_iff.1 (show t.records[i]? = some x from h)
  exact hi

end Table

end JitBroker
