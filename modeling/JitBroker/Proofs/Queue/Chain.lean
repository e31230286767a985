import Mathlib.Data.List.Perm.Subperm
import JitBroker.Queue.TaskList

/-!
# Task lists as chains

A task list *holds* a list of entries, each a slot with the task in it, if its links run through
these slots in this order, forwards and backwards, and every slot that the links do not reach is
unused. What a task list does is then said on the entries:

* `TaskList.Holds.push`: adding a task puts one entry at the end;
* `TaskList.Holds.unlink`: taking a task out of a slot removes the entry of that slot, and the
  order of the others stays;
* `TaskList.Holds.entries_eq`: walking along the links finds just these entries.

A stretch of the chain (`Chain`) is described by what comes before and after it, so that a removal
in the middle is two stretches joined.
-/

namespace JitBroker

namespace TaskList

/-- Entries of a list: slots with the tasks in them. -/
abbrev Entries := List (Nat × TaskId)

/-- The slot of the first entry, or else what comes after the entries. -/
def firstSlot (es : Entries) (after : Option Nat) : Option Nat :=
  match es with
  | [] => after
  | e :: _ => some e.1

/-- The slot of the last entry, or else what comes before the entries. -/
def lastSlot (before : Option Nat) : Entries → Option Nat
  | [] => before
  | e :: rest => lastSlot (some e.1) rest

/-- The links run through the entries, from what comes before them to what comes after. -/
def Chain (slots : Table Slot) (before : Option Nat) (es : Entries) (after : Option Nat) : Prop :=
  match es with
  | [] => True
  | e :: rest =>
    slots[e.1]? = some ⟨some e.2, before, firstSlot rest after⟩ ∧ Chain slots (some e.1) rest after

variable {slots : Table Slot} {before after : Option Nat} {es l r : Entries} {s : Nat} {t : TaskId}

@[simp] theorem firstSlot_cons (e : Nat × TaskId) : firstSlot (e :: es) after = some e.1 := rfl

theorem firstSlot_append : firstSlot (l ++ r) after = firstSlot l (firstSlot r after) := by
  cases l <;> rfl

theorem lastSlot_append : lastSlot before (l ++ r) = lastSlot (lastSlot before l) r := by
  induction l generalizing before with
  | nil => rfl
  | cons e l ih => exact ih

theorem lastSlot_mem (h : es ≠ []) : ∃ s ∈ es.map (·.1), ∀ before, lastSlot before es = some s := by
  induction es with
  | nil => exact absurd rfl h
  | cons e es ih =>
    cases es with
    | nil => exact ⟨e.1, by simp, fun _ => rfl⟩
    | cons e' es =>
      obtain ⟨s, hs, hl⟩ := ih (by simp)
      exact ⟨s, List.mem_cons_of_mem _ hs, fun _ => hl (some e.1)⟩

/-- A chain is cut and joined at any place. -/
theorem chain_append : Chain slots before (l ++ r) after ↔
    Chain slots before l (firstSlot r after) ∧ Chain slots (lastSlot before l) r after := by
  induction l generalizing before with
  | nil => simp [Chain, lastSlot]
  | cons e l ih => simp only [List.cons_append, Chain, firstSlot_append, ih, lastSlot, and_assoc]

/-- A chain only depends on its own slots. -/
theorem Chain.congr {slots' : Table Slot} (h : Chain slots before es after)
    (heq : ∀ s ∈ es.map (·.1), slots'[s]? = slots[s]?) : Chain slots' before es after := by
  induction es generalizing before with
  | nil => trivial
  | cons e es ih =>
    exact ⟨(heq e.1 (by simp)).trans h.1, ih h.2 fun s hs => heq s (List.mem_cons_of_mem _ hs)⟩

theorem Chain.modify_of_notMem (h : Chain slots before es after) {f : Slot → Slot}
    (hs : s ∉ es.map (·.1)) : Chain (slots.modify s f) before es after :=
  h.congr fun s' hs' => by
    have : s ≠ s' := fun e => hs (e ▸ hs')
    rw [Table.getElem?_modify, if_neg this]

/-- The end of a chain is tied to another slot by the link of its last entry. -/
theorem Chain.linkNext (h : Chain slots none es after) (hnodup : (es.map (·.1)).Nodup)
    (after' : Option Nat) :
    Chain (linkNext slots (lastSlot none es) after') none es after' := by
  rcases List.eq_nil_or_concat es with rfl | ⟨l, e, rfl⟩
  · trivial
  · rw [List.concat_eq_append] at h hnodup ⊢
    rw [lastSlot_append]
    obtain ⟨hl, hlast, -⟩ := chain_append.1 h
    have hnot : e.1 ∉ l.map (·.1) := by
      rw [List.map_append, List.nodup_append] at hnodup
      exact fun hmem => hnodup.2.2 _ hmem _ (by simp) rfl
    refine chain_append.2 ⟨Chain.modify_of_notMem hl hnot, ?_, trivial⟩
    show (slots.modify e.1 _)[e.1]? = _
    rw [Table.getElem?_modify, if_pos rfl, hlast]
    rfl

/-- The begin of a chain is tied to another slot by the link of its first entry. -/
theorem Chain.linkPrev (h : Chain slots before es none) (hnodup : (es.map (·.1)).Nodup)
    (before' : Option Nat) :
    Chain (linkPrev slots (firstSlot es none) before') before' es none := by
  cases es with
  | nil => trivial
  | cons e es =>
    have hnot : e.1 ∉ es.map (·.1) := (List.nodup_cons.1 hnodup).1
    refine ⟨?_, Chain.modify_of_notMem h.2 hnot⟩
    show (slots.modify e.1 _)[e.1]? = _
    rw [Table.getElem?_modify, if_pos rfl, h.1]
    rfl

theorem getElem?_linkNext {slot : Option Nat} (next : Option Nat) (h : slot ≠ some s) :
    (TaskList.linkNext slots slot next)[s]? = slots[s]? := by
  cases slot with
  | none => rfl
  | some s' =>
    have : s' ≠ s := fun e => h (e ▸ rfl)
    rw [TaskList.linkNext, Table.getElem?_modify, if_neg this]

theorem getElem?_linkPrev {slot : Option Nat} (prev : Option Nat) (h : slot ≠ some s) :
    (TaskList.linkPrev slots slot prev)[s]? = slots[s]? := by
  cases slot with
  | none => rfl
  | some s' =>
    have : s' ≠ s := fun e => h (e ▸ rfl)
    rw [TaskList.linkPrev, Table.getElem?_modify, if_neg this]

theorem lastSlot_ne (h : s ∉ es.map (·.1)) : lastSlot none es ≠ some s := by
  intro e
  cases es with
  | nil => exact absurd e (by simp [lastSlot])
  | cons e' es =>
    obtain ⟨s', hs', hl⟩ := lastSlot_mem (List.cons_ne_nil e' es)
    rw [hl, Option.some.injEq] at e
    exact h (e ▸ hs')

theorem firstSlot_ne (h : s ∉ es.map (·.1)) : firstSlot es none ≠ some s := by
  cases es with
  | nil => simp [firstSlot]
  | cons e' es =>
    intro e
    exact h (by simp [Option.some.inj e])

/-- Walking along the links of a chain finds its entries. -/
theorem entriesFrom_eq {n : Nat} (h : Chain slots before es none) (hn : es.length ≤ n) :
    entriesFrom slots n (firstSlot es none) = es := by
  induction es generalizing before n with
  | nil => cases n <;> rfl
  | cons e es ih =>
    obtain ⟨n, rfl⟩ : ∃ m, n = m + 1 := ⟨n - 1, by simp at hn; omega⟩
    rw [firstSlot_cons, entriesFrom, h.1]
    exact congrArg (e :: ·) (ih h.2 (by simpa using hn))

/-- The slots after the task in one of them was taken out, between those before and after it. -/
def severed (slots : Table Slot) (s : Nat) (prev next : Option Nat) : Table Slot :=
  TaskList.linkPrev
    (TaskList.linkNext (slots.modify s fun x => { x with task := none }) prev next) next prev

@[simp] theorem size_linkNext (slot next : Option Nat) :
    (TaskList.linkNext slots slot next).size = slots.size := by
  cases slot <;> simp [TaskList.linkNext]

@[simp] theorem size_linkPrev (slot prev : Option Nat) :
    (TaskList.linkPrev slots slot prev).size = slots.size := by
  cases slot <;> simp [TaskList.linkPrev]

@[simp] theorem size_severed (prev next : Option Nat) :
    (severed slots s prev next).size = slots.size := by
  simp [severed]

/-! ### What a list holds -/

/-- The list holds these entries, oldest first. -/
structure Holds (l : TaskList) (es : Entries) : Prop where
  /-- The links run through the entries. -/
  chain : Chain l.slots none es none
  /-- The head is the first of them. -/
  head : l.head = firstSlot es none
  /-- The tail is the last of them. -/
  tail : l.tail = lastSlot none es
  /-- The size counts them. -/
  size : l.size = es.length
  /-- No slot is used twice, or both used and unused. -/
  nodup : (es.map (·.1) ++ l.unused).Nodup
  /-- The unused slots exist. -/
  bound : ∀ s ∈ l.unused, s < l.slots.size
  /-- No other slot has a task. -/
  free : ∀ (s : Nat) (x : Slot), l.slots[s]? = some x → s ∉ es.map (·.1) → x.task = none

namespace Holds

variable {l l' : TaskList}

theorem empty : TaskList.empty.Holds [] where
  chain := trivial
  head := rfl
  tail := rfl
  size := rfl
  nodup := List.nodup_nil
  bound := by simp [TaskList.empty]
  free s x h := by simp [TaskList.empty] at h

theorem nodup_slots (h : l.Holds es) : (es.map (·.1)).Nodup := (List.nodup_append.1 h.nodup).1

theorem isEmpty_iff (h : l.Holds es) : l.isEmpty ↔ es = [] := by
  rw [TaskList.isEmpty, h.size]
  simp

/-- Every entry is where it says, with links to its neighbours. -/
theorem getElem?_slots (h : l.Holds (es ++ (s, t) :: r)) :
    l.slots[s]? = some ⟨some t, lastSlot none es, firstSlot r none⟩ :=
  (chain_append.1 h.chain).2.1

theorem lt_size (h : l.Holds es) (hs : s ∈ es.map (·.1)) : s < l.slots.size := by
  obtain ⟨⟨s', t⟩, hmem, rfl⟩ := List.mem_map.1 hs
  obtain ⟨es₁, es₂, rfl⟩ := List.append_of_mem hmem
  exact Table.lt_size_of_getElem? h.getElem?_slots

/-- A list with a new entry at its end, in a slot that was not in use. -/
theorem extend {slots : Table Slot} {unused : List Nat} (h : l.Holds es)
    (hself : slots[s]? = some ⟨some t, l.tail, none⟩)
    (hother : ∀ s' ≠ s, slots[s']? = l.slots[s']?)
    (hnodup : (s :: (es.map (·.1) ++ unused)).Nodup)
    (hbound : ∀ s ∈ unused, s < slots.size) :
    Holds
      { slots := TaskList.linkNext slots l.tail (some s)
        unused := unused
        head := l.head.or (some s)
        tail := some s
        size := l.size + 1 } (es ++ [(s, t)]) := by
  obtain ⟨hs, hnodup⟩ := List.nodup_cons.1 hnodup
  have hes : s ∉ es.map (·.1) := fun hmem => hs (List.mem_append_left _ hmem)
  have hlast : lastSlot none es ≠ some s := lastSlot_ne hes
  have hchain : Chain slots none es none :=
    h.chain.congr fun s' hs' => hother s' fun e => hes (e ▸ hs')
  refine ⟨chain_append.2 ⟨?_, ?_, trivial⟩, ?_, ?_, ?_, ?_, ?_, ?_⟩
  · rw [h.tail]
    exact hchain.linkNext h.nodup_slots (some s)
  · rw [h.tail, getElem?_linkNext _ hlast, hself, h.tail]
    rfl
  · rw [h.head, firstSlot_append]
    cases es <;> rfl
  · rw [lastSlot_append]
    rfl
  · simp [h.size]
  · simp only [List.map_append, List.map_cons, List.map_nil, List.append_assoc]
    exact (List.perm_middle.nodup_iff).2 (List.nodup_cons.2 ⟨hs, hnodup⟩)
  · intro s' hs'
    have := hbound s' hs'
    simp only [TaskList.linkNext]
    split <;> simpa using this
  · intro s' x hx hs'
    simp only [List.map_append, List.map_cons, List.map_nil, List.mem_append, not_or,
      List.mem_singleton] at hs'
    rw [h.tail, getElem?_linkNext _ (lastSlot_ne hs'.1), hother s' hs'.2] at hx
    exact h.free s' x hx hs'.1

/-- Adding a task puts one entry at the end. -/
theorem push (h : l.Holds es) (t : TaskId) : (l.push t).2.Holds (es ++ [((l.push t).1, t)]) := by
  unfold TaskList.push TaskList.occupy
  cases hu : l.unused with
  | cons s unused =>
    have hnodup := h.nodup
    rw [hu] at hnodup
    have hs : s < l.slots.size := h.bound s (by simp [hu])
    refine h.extend ?_ (fun s' hs' => ?_) ((List.perm_middle.nodup_iff).1 hnodup)
      fun s' hs' => by simpa using h.bound s' (by simp [hu, hs'])
    · obtain ⟨x, hx⟩ : ∃ x, l.slots[s]? = some x := by
        cases hx : l.slots[s]? with
        | none => exact absurd ((Table.getElem?_eq_none_iff _ _).1 hx) (by omega)
        | some x => exact ⟨x, rfl⟩
      rw [Table.getElem?_modify, if_pos rfl, hx]
      rfl
    · rw [Table.getElem?_modify, if_neg (Ne.symm hs')]
  | nil =>
    have hnot : l.slots.size ∉ es.map (·.1) := fun hmem => absurd (h.lt_size hmem) (by omega)
    refine h.extend ?_ (fun s' hs' => ?_) (List.nodup_cons.2 ⟨by simpa using hnot, ?_⟩) (by simp)
    · rw [Table.getElem?_add, if_pos rfl]
    · rw [Table.getElem?_add, if_neg hs']
    · simpa using h.nodup_slots

/-- A list without one of its entries, whose neighbours are tied to each other. -/
theorem bypass (h : l.Holds (es ++ (s, t) :: r)) :
    Holds
      { slots := severed l.slots s (lastSlot none es) (firstSlot r none)
        unused := s :: l.unused
        head := if (lastSlot none es).isNone then firstSlot r none else l.head
        tail := if (firstSlot r none).isNone then lastSlot none es else l.tail
        size := l.size - 1 } (es ++ r) := by
  have hnodup := h.nodup
  simp only [List.map_append, List.map_cons, List.append_assoc, List.cons_append] at hnodup
  have hnodup := (List.perm_middle.nodup_iff).1 hnodup
  obtain ⟨hs, hrest⟩ := List.nodup_cons.1 hnodup
  obtain ⟨hl, hr, hdisj⟩ := List.nodup_append.1 hrest
  have hsl : s ∉ es.map (·.1) := fun hmem => hs (List.mem_append_left _ hmem)
  have hsr : s ∉ r.map (·.1) :=
    fun hmem => hs (List.mem_append_right _ (List.mem_append_left _ hmem))
  have hdisj : ∀ s' ∈ es.map (·.1), s' ∉ r.map (·.1) :=
    fun s' h₁ h₂ => hdisj s' h₁ s' (List.mem_append_left _ h₂) rfl
  obtain ⟨hcl, -, hcr⟩ := chain_append.1 h.chain
  have hcl := hcl.modify_of_notMem (f := fun x => { x with task := none }) hsl
  have hcr := hcr.modify_of_notMem (f := fun x => { x with task := none }) hsr
  refine ⟨chain_append.2 ⟨?_, ?_⟩, ?_, ?_, ?_, ?_, ?_, ?_⟩
  -- Each of the two links that change belongs to one side only.
  · exact (hcl.linkNext hl (firstSlot r none)).congr fun s' hs' =>
      getElem?_linkPrev _ (firstSlot_ne (hdisj s' hs'))
  · refine Chain.linkPrev (hcr.congr fun s' hs' => ?_) (List.nodup_append.1 hr).1 (lastSlot none es)
    exact getElem?_linkNext _ (lastSlot_ne fun hmem => hdisj s' hmem hs')
  · rw [h.head, firstSlot_append, firstSlot_append]
    cases es with
    | nil => rfl
    | cons e es =>
      obtain ⟨s', -, hs'⟩ := lastSlot_mem (List.cons_ne_nil e es)
      simp [hs']
  · rw [h.tail, lastSlot_append, lastSlot_append]
    cases r with
    | nil => rfl
    | cons e r => simp [lastSlot]
  · simp [h.size]
  · have hperm : ((es ++ r).map (·.1) ++ s :: l.unused).Perm
        (s :: (es.map (·.1) ++ (r.map (·.1) ++ l.unused))) := by
      rw [List.map_append, ← List.append_assoc]
      exact List.perm_middle
    exact hperm.nodup_iff.2 hnodup
  · intro s' hs'
    rw [size_severed]
    rcases List.mem_cons.1 hs' with rfl | hs'
    · exact h.lt_size (by simp)
    · exact h.bound s' hs'
  · intro s' x hx hs'
    simp only [List.map_append, List.mem_append, not_or] at hs'
    rw [severed, getElem?_linkPrev _ (firstSlot_ne hs'.2), getElem?_linkNext _ (lastSlot_ne hs'.1),
      Table.getElem?_modify] at hx
    split at hx
    · obtain ⟨y, -, rfl⟩ := Option.map_eq_some_iff.1 hx
      rfl
    · rename_i hne
      refine h.free s' x hx ?_
      simp only [List.map_append, List.map_cons, List.mem_append, List.mem_cons, not_or]
      exact ⟨hs'.1, Ne.symm hne, hs'.2⟩

/-- Taking a task out of a slot removes the entry of that slot. -/
theorem unlink (h : l.Holds es) (hu : l.unlink? s = some (t, l')) :
    ∃ es₁ es₂, es = es₁ ++ (s, t) :: es₂ ∧ l'.Holds (es₁ ++ es₂) := by
  unfold unlink? at hu
  split at hu
  · rename_i t' prev next hslot
    have hs : s ∈ es.map (·.1) := by
      by_cases hmem : s ∈ es.map (·.1)
      · exact hmem
      · exact absurd (h.free s _ hslot hmem) (by simp)
    obtain ⟨⟨s', t''⟩, he, rfl⟩ := List.mem_map.1 hs
    obtain ⟨es₁, es₂, rfl⟩ := List.append_of_mem he
    obtain ⟨⟨⟩, rfl, rfl⟩ : t' = t'' ∧ prev = lastSlot none es₁ ∧ next = firstSlot es₂ none := by
      simpa [h.getElem?_slots, eq_comm] using hslot
    simp only [Option.some.injEq, Prod.mk.injEq] at hu
    obtain ⟨rfl, rfl⟩ := hu
    exact ⟨es₁, es₂, rfl, h.bypass⟩
  · exact absurd hu (by simp)

/-- The task of an entry can be taken out of its slot. -/
theorem exists_unlink (h : l.Holds es) (hmem : (s, t) ∈ es) : ∃ l', l.unlink? s = some (t, l') := by
  obtain ⟨es₁, es₂, rfl⟩ := List.append_of_mem hmem
  simp [unlink?, h.getElem?_slots]

/-! ### Walking along the links -/

/-- There are no more entries than slots. -/
theorem length_le (h : l.Holds es) : es.length ≤ l.slots.size := by
  have hsub : (es.map (·.1)).Subperm (List.range l.slots.size) :=
    List.subperm_of_subset h.nodup_slots fun s hs => List.mem_range.2 (h.lt_size hs)
  simpa using hsub.length_le

/-- The entries are found by walking along the links. -/
theorem entries_eq (h : l.Holds es) : l.entries = es := by
  rw [entries, h.head]
  exact entriesFrom_eq h.chain h.length_le

theorem toList_eq (h : l.Holds es) : l.toList = es.map (·.2) := by
  rw [toList, h.entries_eq]

end Holds

end TaskList

end JitBroker
