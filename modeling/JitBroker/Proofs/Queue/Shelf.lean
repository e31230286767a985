import Mathlib.Logic.Function.Basic
import JitBroker.Proofs.Queue.Contents
import JitBroker.Proofs.Table

/-!
# Task lists and the slots on record

A task that is in a list has its slot on record, so that it can be taken out without a search. Some
lists with the slots on record are *shelves*. They are told to take in a task that is on no list, or
to give back the task in a slot that is in use (`Shelves.Admits`), and are said to fail
(`Shelves.serve?`) if a task that is taken in has a slot on record, or if a slot is empty, or is not
the one on record of the task in it.

Shelves refine lists of tasks: whatever they are told of this kind, they never fail, and each list has
the tasks that were put at its end and not deleted since, all where the record says
(`Shelves.keeps_of_admitted`).
-/

namespace JitBroker

open TaskList

/-- Task lists, and the slots that tasks have on record. -/
@[ext]
structure Shelves where
  /-- The lists. -/
  lists : Table TaskList
  /-- The slots on record. -/
  recorded : TaskId → Option Nat

/-- What shelves are told. -/
inductive Order where
  /-- A list takes in a task. -/
  | add (u : Nat) (t : TaskId)
  /-- A list gives back the task that is in a slot. -/
  | remove (u slot : Nat) (t : TaskId)
  deriving DecidableEq

/-- What an order makes of the tasks in a list. -/
def Order.edit (u : Nat) (ts : List TaskId) : Order → List TaskId
  | .add v t => if v = u then ts ++ [t] else ts
  | .remove v _ t => if v = u then ts.erase t else ts

/-- The tasks in a list after some orders, from an empty list on. -/
def contents (os : List Order) (u : Nat) : List TaskId := os.foldl (Order.edit u) []

/-- A list has some tasks, oldest first, each in the slot on record. -/
structure TaskList.Keeps (l : TaskList) (recorded : TaskId → Option Nat) (ts : List TaskId) :
    Prop where
  /-- The tasks are found by walking along the links. -/
  toList_eq : l.toList = ts
  /-- The walk comes to its end by itself. -/
  ends : ∀ {n : Nat}, ts.length ≤ n → (entriesFrom l.slots n l.head).map (·.2) = ts
  /-- Each task is found once. -/
  nodup : ts.Nodup
  /-- The size counts them. -/
  size : l.size = ts.length
  /-- The head is the slot of the first one. -/
  head : l.head = ts.head?.bind recorded
  /-- The tail is the slot of the last one. -/
  tail : l.tail = ts.getLast?.bind recorded
  /-- Each is in the slot on record, the links of which lead to the tasks before and after it. -/
  slot : ∀ {before after : List TaskId} {t : TaskId}, ts = before ++ t :: after →
    ∃ s, recorded t = some s ∧
      l.slots[s]? = some ⟨some t, before.getLast?.bind recorded, after.head?.bind recorded⟩
  /-- These slots are distinct. -/
  distinct : (ts.map recorded).Nodup
  /-- No slot has another task. -/
  occupied : ∀ {s : Nat} {x : Slot} {t : TaskId}, l.slots[s]? = some x → x.task = some t → t ∈ ts

/-- A slot that has a task is that of an entry. -/
theorem TaskList.Holds.mem_of_task {l : TaskList} {es : Entries} {s : Nat} {x : Slot} {t : TaskId}
    (h : l.Holds es) (hx : l.slots[s]? = some x) (ht : x.task = some t) : (s, t) ∈ es := by
  have hs : s ∈ es.map (·.1) := by
    by_contra hnot
    cases (h.free s x hx hnot).symm.trans ht
  obtain ⟨e, he, rfl⟩ := List.mem_map.1 hs
  obtain ⟨es₁, es₂, rfl⟩ := List.append_of_mem he
  rw [h.getElem?_slots] at hx
  obtain rfl := Option.some.inj hx
  obtain rfl := Option.some.inj ht
  exact he

/-- The slot of the first entry is that on record for the first task. -/
theorem TaskList.firstSlot_eq {es : Entries} {recorded : TaskId → Option Nat}
    (h : ∀ e ∈ es, recorded e.2 = some e.1) :
    firstSlot es none = (es.map (·.2)).head?.bind recorded := by
  cases es with
  | nil => rfl
  | cons e es => exact (h e List.mem_cons_self).symm

/-- The slot of the last entry is that on record for the last task. -/
theorem TaskList.lastSlot_eq {es : Entries} {recorded : TaskId → Option Nat}
    (h : ∀ e ∈ es, recorded e.2 = some e.1) :
    lastSlot none es = (es.map (·.2)).getLast?.bind recorded := by
  rcases List.eq_nil_or_concat es with rfl | ⟨es, e, rfl⟩
  · rfl
  · rw [List.concat_eq_append] at h ⊢
    rw [lastSlot_append, List.map_append, List.map_singleton, List.getLast?_concat, Option.bind_some,
      h e (List.mem_append_right _ List.mem_cons_self)]
    rfl

namespace Shelves

variable {s s₁ s' : Shelves} {o : Order} {os os' : List Order} {u v slot : Nat} {t : TaskId}
  {l l' : TaskList} {ts : List TaskId}

/-- Lists without tasks. -/
def empty (n : Nat) : Shelves where
  lists := ⟨(List.replicate n TaskList.empty).toArray⟩
  recorded _ := none

/-- A list takes in a task, which must not have a slot on record. -/
def add? (s : Shelves) (u : Nat) (t : TaskId) : Option Shelves :=
  match s.lists[u]?, s.recorded t with
  | some l, none => some {
      lists := s.lists.modify u fun _ => (l.push t).2
      recorded := Function.update s.recorded t (some (l.push t).1) }
  | _, _ => none

/-- A list gives back the task in a slot, which must be on record for it. -/
def remove? (s : Shelves) (u slot : Nat) : Option Shelves :=
  match s.lists[u]?.bind (·.unlink? slot) with
  | some (t, l) =>
    if s.recorded t = some slot then some {
      lists := s.lists.modify u fun _ => l
      recorded := Function.update s.recorded t none }
    else none
  | none => none

/-- The shelves after an order, unless they fail. -/
def serve? (s : Shelves) : Order → Option Shelves
  | .add u t => s.add? u t
  | .remove u slot _ => s.remove? u slot

/-- The shelves after several orders. -/
def serveAll? (s : Shelves) : List Order → Option Shelves
  | [] => some s
  | o :: os => (s.serve? o).bind (·.serveAll? os)

/-- A task that is taken in is on no list, and one that is given back is in the slot. -/
def Admits (s : Shelves) : Order → Prop
  | .add u t => u < s.lists.size ∧ ∀ l ∈ s.lists.toList, t ∉ l.toList
  | .remove u slot t => ∃ l x, s.lists[u]? = some l ∧ l.slots[slot]? = some x ∧ x.task = some t

/-- So it is with each of several orders when its turn comes. -/
def Admitted (s : Shelves) : List Order → Prop
  | [] => True
  | o :: os => s.Admits o ∧ ∀ s', s.serve? o = some s' → s'.Admitted os

/-- Shelves are told orders that are admitted, and become others. -/
structure Serves (s : Shelves) (os : List Order) (s' : Shelves) : Prop where
  /-- The orders are admitted. -/
  admitted : s.Admitted os
  /-- The shelves do not fail. -/
  eq_some : s.serveAll? os = some s'

/-- Tasks of a list are given back, each out of the slot on record. -/
def removals (s : Shelves) (u : Nat) (ts : List TaskId) : List Order :=
  ts.filterMap fun t => (s.recorded t).map (.remove u · t)

/-- The lists have these tasks, and no other task has a slot on record. -/
structure Keeps (s : Shelves) (contents : Nat → List TaskId) : Prop where
  /-- Each list has its tasks. -/
  list : ∀ {u : Nat} {l : TaskList}, s.lists[u]? = some l → l.Keeps s.recorded (contents u)
  /-- A task on no list has no slot. -/
  off : ∀ {t : TaskId}, (∀ u < s.lists.size, t ∉ contents u) → s.recorded t = none

/-- The slots on record are those where the tasks are. -/
structure Sound (s : Shelves) : Prop where
  /-- The links of every list are sound. -/
  list : ∀ {u : Nat} {l : TaskList}, s.lists[u]? = some l → l.Sound
  /-- The slot of each entry is on record for its task. -/
  recorded : ∀ {u : Nat} {l : TaskList} {e : Nat × TaskId}, s.lists[u]? = some l → e ∈ l.entries →
    s.recorded e.2 = some e.1
  /-- A task that has a slot on record is in a list. -/
  listed : ∀ {t : TaskId} {slot : Nat}, s.recorded t = some slot →
    ∃ (u : Nat) (l : TaskList), s.lists[u]? = some l ∧ t ∈ l.toList
  /-- No task is in two lists. -/
  alone : ∀ {u v : Nat} {l l' : TaskList} {t : TaskId}, s.lists[u]? = some l →
    s.lists[v]? = some l' → t ∈ l.toList → t ∈ l'.toList → u = v

theorem serveAll?_append : s.serveAll? (os ++ os') = (s.serveAll? os).bind (·.serveAll? os') := by
  induction os generalizing s with
  | nil => rfl
  | cons o os ih =>
    rw [List.cons_append, serveAll?, serveAll?, Option.bind_assoc]
    exact congrArg _ (funext fun _ => ih)

theorem Admitted.append (h : s.Admitted os)
    (h' : ∀ s', s.serveAll? os = some s' → s'.Admitted os') : s.Admitted (os ++ os') := by
  induction os generalizing s with
  | nil => exact h' s rfl
  | cons o os ih =>
    refine ⟨h.1, fun s₁ hs₁ => ih (h.2 s₁ hs₁) fun s' hs' => h' s' ?_⟩
    rw [serveAll?, hs₁, Option.bind_some, hs']

theorem Serves.nil (s : Shelves) : s.Serves [] s := ⟨trivial, rfl⟩

theorem Serves.append (h : s.Serves os s₁) (h' : s₁.Serves os' s') : s.Serves (os ++ os') s' where
  admitted := h.admitted.append fun _ hs =>
    Option.some.inj (h.eq_some.symm.trans hs) ▸ h'.admitted
  eq_some := by rw [serveAll?_append, h.eq_some, Option.bind_some, h'.eq_some]

/-- One order more may come first. -/
theorem Serves.cons (ho : s.Admits o) (hs : s.serve? o = some s₁) (h : s₁.Serves os s') :
    s.Serves (o :: os) s' where
  admitted := ⟨ho, fun _ hs' => Option.some.inj (hs.symm.trans hs') ▸ h.admitted⟩
  eq_some := by rw [serveAll?, hs, Option.bind_some, h.eq_some]

theorem removals_cons (h : s.recorded t = some slot) :
    s.removals u (t :: ts) = .remove u slot t :: s.removals u ts := by
  rw [removals, List.filterMap_cons, h]
  rfl

/-- Giving tasks back deletes them from their list. -/
theorem edit_removals (h : ∀ t ∈ ts, ∃ slot, s.recorded t = some slot) (ts' : List TaskId) :
    (s.removals u ts).foldl (Order.edit v) ts' = if u = v then ts'.diff ts else ts' := by
  induction ts generalizing ts' with
  | nil => simp [removals]
  | cons t ts ih =>
    obtain ⟨⟨slot, hslot⟩, h⟩ := List.forall_mem_cons.1 h
    rw [removals_cons hslot, List.foldl_cons, ih h, Order.edit, List.diff_cons]
    split <;> rfl

theorem getElem?_empty (n u : Nat) :
    (empty n).lists[u]? = if u < n then some TaskList.empty else none := by
  rw [← Table.toList_getElem?]
  exact List.getElem?_replicate

theorem holds_empty {n : Nat} (hl : (empty n).lists[u]? = some l) : l.Holds [] := by
  rw [getElem?_empty] at hl
  split at hl
  · exact Option.some.inj hl ▸ .empty
  · cases hl

theorem sound_empty (n : Nat) : (empty n).Sound := by
  refine ⟨fun hl => ⟨[], holds_empty hl⟩, fun hl he => ?_, nofun, fun hl _ ht => ?_⟩
  · rw [(holds_empty hl).entries_eq] at he
    cases he
  · rw [(holds_empty hl).toList_eq] at ht
    cases ht

namespace Sound

theorem mem_entries (h : s.Sound) (hl : s.lists[u]? = some l) (ht : t ∈ l.toList) :
    ∃ slot, s.recorded t = some slot ∧ (slot, t) ∈ l.entries := by
  obtain ⟨e, he, rfl⟩ := List.mem_map.1 ht
  exact ⟨e.1, h.recorded hl he, he⟩

/-- No task is in a list twice. -/
theorem nodup (h : s.Sound) (hl : s.lists[u]? = some l) : l.toList.Nodup := by
  obtain ⟨es, hes⟩ := h.list hl
  refine List.Nodup.map_on (fun e he e' he' heq => ?_) (hes.entries_eq ▸ hes.nodup_slots.of_map)
  refine Prod.ext ?_ heq
  exact Option.some.inj ((h.recorded hl he).symm.trans (heq ▸ h.recorded hl he'))

/-- What sound shelves have. -/
theorem keeps (h : s.Sound) {contents : Nat → List TaskId}
    (hcontents : ∀ {u : Nat} {l : TaskList}, s.lists[u]? = some l → l.toList = contents u) :
    s.Keeps contents where
  list {u l} hl := by
    obtain ⟨es, hes⟩ := h.list hl
    have hentries := hes.entries_eq
    have htoList := hes.toList_eq
    have hnodup := h.nodup hl
    rw [← hcontents hl]
    have hrecorded : ∀ e ∈ es, s.recorded e.2 = some e.1 :=
      fun e he => h.recorded hl (hentries ▸ he)
    refine ⟨rfl, fun {n} hn => ?_, hnodup, ?_, ?_, ?_, fun {before after t} ht => ?_, ?_,
      fun {s x t} hx ht => ?_⟩
    · rw [hes.head, entriesFrom_eq hes.chain (by simpa [htoList] using hn), htoList]
    · rw [htoList, hes.size, List.length_map]
    · rw [htoList, hes.head, firstSlot_eq hrecorded]
    · rw [htoList, hes.tail, lastSlot_eq hrecorded]
    · rw [htoList, List.map_eq_append_iff] at ht
      obtain ⟨es₁, es', rfl, rfl, hes'⟩ := ht
      obtain ⟨⟨slot, t⟩, es₂, rfl, rfl, rfl⟩ := List.map_eq_cons_iff.1 hes'
      obtain ⟨hrecorded₁, hslot, hrecorded₂⟩ :=
        (List.forall_mem_append.1 hrecorded).imp_right List.forall_mem_cons.1
      exact ⟨slot, hslot, by
        rw [hes.getElem?_slots, lastSlot_eq hrecorded₁, firstSlot_eq hrecorded₂]⟩
    · have heq : es.map (s.recorded ∘ Prod.snd) = (es.map Prod.fst).map some := by
        rw [List.map_map]
        exact List.map_congr_left hrecorded
      rw [htoList, List.map_map]
      exact heq ▸ hes.nodup_slots.map fun _ _ => Option.some.inj
    · rw [htoList]
      exact List.mem_map_of_mem (hes.mem_of_task hx ht)
  off {t} hoff := by
    cases hslot : s.recorded t with
    | none => rfl
    | some slot =>
      obtain ⟨u, l, hl, ht⟩ := h.listed hslot
      exact absurd (hcontents hl ▸ ht) (hoff u (Table.lt_size_of_getElem? hl))

/-- A list may be replaced, if its tasks are those that had no slot elsewhere. -/
theorem replace (h : s.Sound) (hl : s.lists[u]? = some l) {recorded : TaskId → Option Nat}
    (hsound : l'.Sound) (hself : ∀ e ∈ l'.entries, recorded e.2 = some e.1)
    (hothers : ∀ {v : Nat} {l₁ : TaskList} {t : TaskId}, v ≠ u → s.lists[v]? = some l₁ →
      t ∈ l₁.toList → recorded t = s.recorded t ∧ t ∉ l'.toList)
    (hlisted : ∀ {t : TaskId} {slot : Nat}, recorded t = some slot →
      t ∈ l'.toList ∨ t ∉ l.toList ∧ s.recorded t = some slot) :
    Sound { lists := s.lists.modify u fun _ => l', recorded := recorded } := by
  have cases {v : Nat} {l₁ : TaskList} (hl₁ : (s.lists.modify u fun _ => l')[v]? = some l₁) :
      v ≠ u ∧ s.lists[v]? = some l₁ ∨ v = u ∧ l₁ = l' := by
    obtain ⟨l₀, hl₀, ⟨hne, rfl⟩ | ⟨rfl, rfl⟩⟩ := Table.exists_of_modify hl₁
    · exact .inl ⟨Ne.symm hne, hl₀⟩
    · exact .inr ⟨rfl, rfl⟩
  constructor
  case list =>
    intro v l₁ hl₁
    rcases cases hl₁ with ⟨-, hl₁⟩ | ⟨-, rfl⟩
    · exact h.list hl₁
    · exact hsound
  case recorded =>
    intro v l₁ e hl₁ he
    rcases cases hl₁ with ⟨hne, hl₁⟩ | ⟨-, rfl⟩
    · exact (hothers hne hl₁ (List.mem_map_of_mem he)).1.trans (h.recorded hl₁ he)
    · exact hself e he
  case listed =>
    intro t slot hslot
    rcases hlisted hslot with ht | ⟨hnot, hslot⟩
    · exact ⟨u, l', Table.getElem?_modify_self hl _, ht⟩
    · obtain ⟨v, l₁, hl₁, ht⟩ := h.listed hslot
      have hv : u ≠ v := by
        rintro rfl
        exact hnot (Option.some.inj (hl₁.symm.trans hl) ▸ ht)
      exact ⟨v, l₁, (Table.getElem?_modify_of_ne hv _).trans hl₁, ht⟩
  case alone =>
    intro v v' l₁ l₂ t hl₁ hl₂ ht₁ ht₂
    rcases cases hl₁ with ⟨hne₁, hold₁⟩ | ⟨rfl, rfl⟩ <;>
      rcases cases hl₂ with ⟨hne₂, hold₂⟩ | ⟨rfl, rfl⟩
    · exact h.alone hold₁ hold₂ ht₁ ht₂
    · exact absurd ht₂ (hothers hne₁ hold₁ ht₁).2
    · exact absurd ht₁ (hothers hne₂ hold₂ ht₂).2
    · rfl

/-- A task that is on no list is taken in. -/
theorem add (h : s.Sound) (hl : s.lists[u]? = some l) (hnone : s.recorded t = none) :
    ∃ s', s.add? u t = some s' ∧ s'.Sound ∧ s'.lists = s.lists.modify u fun _ => (l.push t).2 := by
  refine ⟨_, by rw [add?, hl, hnone], ?_, rfl⟩
  obtain ⟨es, hes⟩ := h.list hl
  have hes' := hes.push t
  have hgains := (h.list hl).push t
  have hmem {t' : TaskId} : t' ∈ (l.push t).2.toList ↔ t' ∈ l.toList ∨ t' = t := by
    rw [hgains.toList_eq, List.mem_append, List.mem_singleton]
  have hne {v : Nat} {l₁ : TaskList} {t' : TaskId} (hl₁ : s.lists[v]? = some l₁)
      (ht : t' ∈ l₁.toList) : t' ≠ t := by
    rintro rfl
    obtain ⟨slot, hslot, -⟩ := h.mem_entries hl₁ ht
    cases hnone.symm.trans hslot
  refine h.replace hl hgains.sound (fun e he => ?_) (fun {v l₁ t'} hv hl₁ ht => ⟨?_, fun ht' => ?_⟩)
    fun {t' slot} hslot => ?_
  · rw [hes'.entries_eq, List.mem_append, List.mem_singleton, ← hes.entries_eq] at he
    rcases he with he | rfl
    · rw [Function.update_of_ne (hne hl (List.mem_map_of_mem he))]
      exact h.recorded hl he
    · exact Function.update_self _ _ _
  · exact Function.update_of_ne (hne hl₁ ht) _ _
  · rcases hmem.1 ht' with ht' | rfl
    · exact hv (h.alone hl₁ hl ht ht')
    · exact hne hl₁ ht rfl
  · by_cases ht : t' ∈ (l.push t).2.toList
    · exact .inl ht
    · rw [hmem, not_or] at ht
      rw [Function.update_of_ne ht.2] at hslot
      exact .inr ⟨ht.1, hslot⟩

/-- The task in a slot is given back. -/
theorem remove (h : s.Sound) (hl : s.lists[u]? = some l) (he : (slot, t) ∈ l.entries) :
    ∃ l', l.unlink? slot = some (t, l') ∧ l'.toList = l.toList.erase t ∧
      ∃ s', s.remove? u slot = some s' ∧ s'.Sound ∧ s'.lists = (s.lists.modify u fun _ => l') ∧
        s'.recorded = Function.update s.recorded t none := by
  obtain ⟨es, hes⟩ := h.list hl
  obtain ⟨l', hunlink⟩ := hes.exists_unlink (hes.entries_eq ▸ he)
  obtain ⟨es₁, es₂, rfl, hes'⟩ := hes.unlink hunlink
  have hnodup := h.nodup hl
  have htoList : l'.toList = l.toList.erase t := by
    rw [hes.toList_eq, List.map_append, List.map_cons] at hnodup
    rw [hes'.toList_eq, hes.toList_eq, List.map_append, List.map_append, List.map_cons]
    have hnot : t ∉ es₁.map (·.2) := fun ht =>
      (List.nodup_append.1 hnodup).2.2 t ht t List.mem_cons_self rfl
    rw [List.erase_append_right _ hnot, List.erase_cons_head]
  have hmem {t' : TaskId} : t' ∈ l'.toList ↔ t' ≠ t ∧ t' ∈ l.toList := by
    rw [htoList, hnodup.mem_erase_iff]
  have ht : t ∈ l.toList := List.mem_map_of_mem he
  refine ⟨l', hunlink, htoList, ⟨_, Function.update s.recorded t none⟩, ?_, ?_, rfl, rfl⟩
  · rw [remove?, hl, Option.bind_some, hunlink]
    exact if_pos (h.recorded hl he)
  refine h.replace hl ⟨_, hes'⟩ (fun e he' => ?_)
    (fun {v l₁ t'} hv hl₁ ht₁ => ⟨Function.update_of_ne ?_ _ _, fun ht' => ?_⟩)
    fun {t' slot'} hslot => ?_
  · have hne : e.2 ≠ t := (hmem.1 (List.mem_map_of_mem he')).1
    rw [hes'.entries_eq, List.mem_append] at he'
    rw [Function.update_of_ne hne]
    refine h.recorded hl (hes.entries_eq ▸ List.mem_append.2 ?_)
    exact he'.imp_right (List.mem_cons_of_mem _)
  · rintro rfl
    exact hv (h.alone hl₁ hl ht₁ ht)
  · exact hv (h.alone hl₁ hl ht₁ (hmem.1 ht').2)
  · have hne : t' ≠ t := by
      rintro rfl
      cases (Function.update_self t' none s.recorded).symm.trans hslot
    rw [Function.update_of_ne hne] at hslot
    by_cases ht' : t' ∈ l.toList
    · exact .inl (hmem.2 ⟨hne, ht'⟩)
    · exact .inr ⟨ht', hslot⟩

theorem admits_remove (h : s.Sound) (hl : s.lists[u]? = some l) (he : (slot, t) ∈ l.entries) :
    s.Admits (.remove u slot t) := by
  obtain ⟨es, hes⟩ := h.list hl
  rw [hes.entries_eq] at he
  obtain ⟨es₁, es₂, rfl⟩ := List.append_of_mem he
  exact ⟨l, _, hl, hes.getElem?_slots, rfl⟩

/-- The tasks in some slots of a list are given back one after the other. -/
theorem serveAll_unlinkAll {q q' : CompileQueue} {slots : List Nat} (h : s.Sound)
    (hl : s.lists[u]? = some q.list) (hq : q.unlinkAll? slots = some (ts, q')) :
    s.Serves (s.removals u ts) {
      lists := s.lists.modify u fun _ => q'.list
      recorded := fun t => if t ∈ ts then none else s.recorded t } := by
  induction slots generalizing s q ts with
  | nil =>
    obtain ⟨rfl, rfl⟩ : [] = ts ∧ q = q' := by simpa [CompileQueue.unlinkAll?] using hq
    simpa [removals, Table.modify_const hl] using Serves.nil s
  | cons slot slots ih =>
    simp only [CompileQueue.unlinkAll?, CompileQueue.unlink?, Option.bind_eq_bind,
      Option.bind_eq_some_iff, Option.map_eq_some_iff] at hq
    obtain ⟨⟨t, q₁⟩, ⟨⟨t, l₁⟩, hl₁, ⟨⟩⟩, ⟨ts, q₂⟩, hq₂, ⟨⟩⟩ := hq
    obtain ⟨es, hes⟩ := h.list hl
    obtain ⟨kept, hkept, hperm, -⟩ := hes.exists_sheds hl₁
    have he : (slot, t) ∈ q.list.entries := hes.entries_eq ▸ hperm.symm.subset List.mem_cons_self
    obtain ⟨l', hl', htoList, s₁, hs₁, hsound₁, hlists, hrecorded⟩ := h.remove hl he
    obtain rfl : l₁ = l' := congrArg Prod.snd (Option.some.inj (hl₁.symm.trans hl'))
    have hl₁ : s₁.lists[u]? = some l₁ := hlists ▸ Table.getElem?_modify_self hl _
    -- The task that is given back is in the list no more, so the others are on record as before.
    have hnot : t ∉ ts := by
      intro ht
      obtain ⟨hsheds, -⟩ := CompileQueue.unlinkAll?_sheds hkept hq₂
      have hmem : t ∈ l₁.toList := hsheds.perm.symm.subset (List.mem_append_left _ ht)
      exact ((h.nodup hl).mem_erase_iff.1 (htoList ▸ hmem)).1 rfl
    have hremovals : s₁.removals u ts = s.removals u ts := by
      refine List.filterMap_congr fun t' ht' => ?_
      have hne : t' ≠ t := fun heq => hnot (heq ▸ ht')
      rw [hrecorded, Function.update_of_ne hne]
    have hrest := ih hsound₁ hl₁ hq₂
    rw [hremovals, hlists, hrecorded, Table.modify_modify] at hrest
    rw [removals_cons (h.recorded hl he)]
    refine .cons (h.admits_remove hl he) hs₁ ?_
    convert hrest using 2
    funext t'
    by_cases heq : t' = t
    · rw [heq, Function.update_self, ite_self, if_pos List.mem_cons_self]
    · rw [Function.update_of_ne heq]
      simp [heq]

/-- What is admitted does not fail, and edits one list. -/
theorem serve (h : s.Sound) (ho : s.Admits o) : ∃ s', s.serve? o = some s' ∧ s'.Sound ∧
    s'.lists.size = s.lists.size ∧ ∀ {u : Nat} {l' : TaskList}, s'.lists[u]? = some l' →
      ∃ l, s.lists[u]? = some l ∧ l'.toList = o.edit u l.toList := by
  cases o with
  | add v t =>
    obtain ⟨hv, hnot⟩ := ho
    obtain ⟨l, hl⟩ := Table.exists_getElem? hv
    have hnone : s.recorded t = none := by
      cases hslot : s.recorded t with
      | none => rfl
      | some slot =>
        obtain ⟨v', l', hl', ht⟩ := h.listed hslot
        exact absurd ht (hnot l' (Table.mem_toList_iff.2 ⟨v', hl'⟩))
    obtain ⟨s', hs', hsound, hlists⟩ := h.add hl hnone
    refine ⟨s', hs', hsound, by rw [hlists, Table.size_modify], fun {u l'} hl' => ?_⟩
    rw [hlists] at hl'
    obtain ⟨l₀, hl₀, ⟨hne, rfl⟩ | ⟨rfl, rfl⟩⟩ := Table.exists_of_modify hl'
    · exact ⟨_, hl₀, (if_neg hne).symm⟩
    · obtain rfl := Option.some.inj (hl.symm.trans hl₀)
      exact ⟨l, hl, ((h.list hl).push t).toList_eq.trans (if_pos rfl).symm⟩
  | remove v slot t =>
    obtain ⟨l, x, hl, hx, ht⟩ := ho
    obtain ⟨es, hes⟩ := h.list hl
    have he : (slot, t) ∈ l.entries := hes.entries_eq.symm ▸ hes.mem_of_task hx ht
    obtain ⟨l₁, -, htoList, s', hs', hsound, hlists, -⟩ := h.remove hl he
    refine ⟨s', hs', hsound, by rw [hlists, Table.size_modify], fun {u l'} hl' => ?_⟩
    rw [hlists] at hl'
    obtain ⟨l₀, hl₀, ⟨hne, rfl⟩ | ⟨rfl, rfl⟩⟩ := Table.exists_of_modify hl'
    · exact ⟨_, hl₀, (if_neg hne).symm⟩
    · obtain rfl := Option.some.inj (hl.symm.trans hl₀)
      exact ⟨l, hl, htoList.trans (if_pos rfl).symm⟩

/-- So it is with several orders. -/
theorem serveAll (h : s.Sound) (hos : s.Admitted os) : ∃ s', s.serveAll? os = some s' ∧ s'.Sound ∧
    s'.lists.size = s.lists.size ∧ ∀ {u : Nat} {l' : TaskList}, s'.lists[u]? = some l' →
      ∃ l, s.lists[u]? = some l ∧ l'.toList = os.foldl (Order.edit u) l.toList := by
  induction os generalizing s with
  | nil => exact ⟨s, rfl, h, rfl, fun hl => ⟨_, hl, rfl⟩⟩
  | cons o os ih =>
    obtain ⟨ho, hrest⟩ := hos
    obtain ⟨s₁, hs₁, hsound₁, hsize₁, hedit₁⟩ := h.serve ho
    obtain ⟨s', hs', hsound', hsize', hedit'⟩ := ih hsound₁ (hrest s₁ hs₁)
    refine ⟨s', by rw [serveAll?, hs₁, Option.bind_some, hs'], hsound', hsize'.trans hsize₁,
      fun {u l'} hl' => ?_⟩
    obtain ⟨l₁, hl₁, heq'⟩ := hedit' hl'
    obtain ⟨l, hl, heq₁⟩ := hedit₁ hl₁
    exact ⟨l, hl, by rw [heq', heq₁, List.foldl_cons]⟩

end Sound

theorem Serves.sound (h : s.Serves os s') (hs : s.Sound) : s'.Sound := by
  obtain ⟨_, hs', hsound, -⟩ := hs.serveAll h.admitted
  exact Option.some.inj (hs'.symm.trans h.eq_some) ▸ hsound

/-- Orders edit the lists. -/
theorem Serves.edits (h : s.Serves os s') (hs : s.Sound) (hl' : s'.lists[u]? = some l') :
    ∃ l, s.lists[u]? = some l ∧ l'.toList = os.foldl (Order.edit u) l.toList := by
  obtain ⟨_, hs', -, -, hedits⟩ := hs.serveAll h.admitted
  obtain rfl := Option.some.inj (hs'.symm.trans h.eq_some)
  exact hedits hl'

/-- Whatever lists without tasks are told one after the other, if each task that is taken in is on no
list then, and each one that is given back in its slot: they do not fail, and have just the tasks that
were put at their ends and not deleted since. -/
theorem keeps_of_admitted (n : Nat) (h : (empty n).Admitted os) :
    ∃ s, (empty n).serveAll? os = some s ∧ s.lists.size = n ∧ s.Keeps (contents os) := by
  obtain ⟨s, hs, hsound, hsize, hedit⟩ := (sound_empty n).serveAll h
  refine ⟨s, hs, hsize.trans (by simp [empty, Table.size]), hsound.keeps fun {u l} hl => ?_⟩
  obtain ⟨l₀, hl₀, heq⟩ := hedit hl
  rw [heq, (holds_empty hl₀).toList_eq]
  rfl

end Shelves

end JitBroker
