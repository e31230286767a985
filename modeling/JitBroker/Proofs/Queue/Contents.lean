import Mathlib.Data.List.Nodup
import JitBroker.Proofs.Queue.Chain
import JitBroker.Queue

/-!
# What a queue gains and loses

Of the list of a queue it only matters which tasks are in it, and that its links are sound. Two
relations say what becomes of the tasks:

* `TaskList.Gains`: one more task, at the end;
* `TaskList.Sheds`: some tasks are gone, and the others are still in their order.

A sound list gives up the tasks of any slots that are in use and named once
(`TaskList.Holds.exists_unlinkAll`), so taking all its tasks off never fails
(`TaskList.Sound.unlinkAll_entries`), and neither does taking off what a selector has picked
(`Selector.nodup_select`, `Selector.select_subset`).
-/

namespace JitBroker

namespace TaskList

variable {l l' l'' : TaskList} {es : Entries} {t : TaskId} {ts ts' : List TaskId}

/-- The links of the list are those of some entries. -/
def Sound (l : TaskList) : Prop := ∃ es, l.Holds es

/-- The second list is the first one with a task more. -/
structure Gains (l : TaskList) (t : TaskId) (l' : TaskList) : Prop where
  /-- The new list is sound. -/
  sound : l'.Sound
  /-- The task comes last. -/
  toList_eq : l'.toList = l.toList ++ [t]

/-- The second list is the first one without some tasks. -/
structure Sheds (l : TaskList) (ts : List TaskId) (l' : TaskList) : Prop where
  /-- The new list is sound. -/
  sound : l'.Sound
  /-- Each task is gone or still there. -/
  perm : l.toList.Perm (ts ++ l'.toList)

theorem Sound.push (h : l.Sound) (t : TaskId) : l.Gains t (l.push t).2 := by
  obtain ⟨es, h⟩ := h
  have h' := h.push t
  refine ⟨⟨_, h'⟩, ?_⟩
  rw [h'.toList_eq, h.toList_eq, List.map_append]
  rfl

theorem Sheds.refl (h : l.Sound) : l.Sheds [] l := ⟨h, by simp⟩

theorem Sheds.trans (h : l.Sheds ts l') (h' : l'.Sheds ts' l'') : l.Sheds (ts ++ ts') l'' := by
  refine ⟨h'.sound, h.perm.trans ?_⟩
  rw [List.append_assoc]
  exact h'.perm.append_left ts

theorem Sheds.count_add (h : l.Sheds ts l') (t : TaskId) :
    l'.toList.count t + ts.count t = l.toList.count t := by
  rw [h.perm.count_eq, List.count_append, Nat.add_comm]

theorem Holds.exists_sheds {s : Nat} (h : l.Holds es) (hu : l.unlink? s = some (t, l')) :
    ∃ kept, l'.Holds kept ∧ es.Perm ((s, t) :: kept) ∧ l.Sheds [t] l' := by
  obtain ⟨es₁, es₂, rfl, h'⟩ := h.unlink hu
  refine ⟨_, h', List.perm_middle, ⟨_, h'⟩, ?_⟩
  rw [h.toList_eq, h'.toList_eq, List.map_append, List.map_append, List.map_cons]
  exact List.perm_middle

end TaskList

namespace CompileQueue

open TaskList

variable {q q' : CompileQueue} {es : Entries} {slots : List Nat} {ts : List TaskId}

/-- Taking tasks out of slots removes just them, and changes nothing else but the count of those
that went. -/
theorem unlinkAll?_sheds (h : q.list.Holds es) (hu : q.unlinkAll? slots = some (ts, q')) :
    q.list.Sheds ts q'.list ∧ ts.length = slots.length ∧
      q' = { q with list := q'.list, removed := q.removed + ts.length } := by
  induction slots generalizing q es ts with
  | nil =>
    obtain ⟨rfl, rfl⟩ : [] = ts ∧ q = q' := by simpa [unlinkAll?] using hu
    exact ⟨.refl ⟨es, h⟩, rfl, rfl⟩
  | cons s slots ih =>
    simp only [unlinkAll?, unlink?, Option.bind_eq_bind, Option.bind_eq_some_iff,
      Option.map_eq_some_iff] at hu
    obtain ⟨⟨t, q₁⟩, ⟨⟨t, l₁⟩, hl₁, ⟨⟩⟩, ⟨ts, q₂⟩, hq₂, ⟨⟩⟩ := hu
    obtain ⟨kept, hkept, -, hsheds⟩ := h.exists_sheds hl₁
    obtain ⟨hrest, hlength, heq⟩ :=
      ih (q := { q with list := l₁, removed := q.removed + 1 }) hkept hq₂
    refine ⟨hsheds.trans hrest, by simp [hlength], heq.trans ?_⟩
    simp only [List.length_cons]
    congr 1
    omega

/-- Clearing some slots and then others is to clear them all. -/
theorem unlinkAll?_append_eq_some {slots' : List Nat} :
    q.unlinkAll? (slots ++ slots') = some (ts, q') ↔
      ∃ ts₁ q₁ ts₂, q.unlinkAll? slots = some (ts₁, q₁) ∧ q₁.unlinkAll? slots' = some (ts₂, q') ∧
        ts = ts₁ ++ ts₂ := by
  induction slots generalizing q q' ts with
  | nil => simp [unlinkAll?]
  | cons s slots ih =>
    simp only [List.cons_append, unlinkAll?, Option.bind_eq_bind, Option.bind_eq_some_iff,
      Prod.exists, ih]
    constructor
    · rintro ⟨t, q₀, ht, _, _, ⟨ts₁, q₁, ts₂, h₁, h₂, rfl⟩, ⟨⟩⟩
      exact ⟨t :: ts₁, q₁, ts₂, ⟨t, q₀, ht, ts₁, q₁, h₁, rfl⟩, h₂, rfl⟩
    · rintro ⟨_, q₁, ts₂, ⟨t, q₀, ht, ts₁, q₂, h₁, ⟨⟩⟩, h₂, rfl⟩
      exact ⟨t, q₀, ht, _, _, ⟨ts₁, q₁, ts₂, h₁, h₂, rfl⟩, rfl⟩

/-- Slots in use that are named once can all be cleared. -/
theorem exists_unlinkAll (h : q.list.Holds es) (hnodup : slots.Nodup)
    (hsub : slots ⊆ es.map (·.1)) : ∃ ts q', q.unlinkAll? slots = some (ts, q') := by
  induction slots generalizing q es with
  | nil => exact ⟨[], q, rfl⟩
  | cons s slots ih =>
    obtain ⟨hs, hrest⟩ := List.nodup_cons.1 hnodup
    obtain ⟨⟨s', t⟩, hmem, rfl⟩ := List.mem_map.1 (hsub List.mem_cons_self)
    obtain ⟨l₁, hl₁⟩ := h.exists_unlink hmem
    obtain ⟨kept, hkept, hperm, -⟩ := h.exists_sheds hl₁
    have hkeeps : slots ⊆ kept.map (·.1) := by
      intro x hx
      have := (hperm.map (·.1)).subset (hsub (List.mem_cons_of_mem _ hx))
      rcases List.mem_cons.1 this with rfl | h
      · exact absurd hx hs
      · exact h
    obtain ⟨ts, q', hq'⟩ :=
      ih (q := { q with list := l₁, removed := q.removed + 1 }) hkept hrest hkeeps
    exact ⟨t :: ts, q', by simp [unlinkAll?, unlink?, hl₁, hq']⟩

/-- All tasks of a sound list can be taken off, and then it is empty. -/
theorem exists_unlinkAll_entries (h : q.list.Sound) :
    ∃ ts q', q.unlinkAll? (q.list.entries.map (·.1)) = some (ts, q') ∧ q.list.Sheds ts q'.list ∧
      q'.list.toList = [] ∧ q' = { q with list := q'.list, removed := q.removed + ts.length } := by
  obtain ⟨es, h⟩ := h
  obtain ⟨ts, q', hq'⟩ := exists_unlinkAll h h.nodup_slots (List.Subset.refl _)
  obtain ⟨hsheds, hlength, heq⟩ := unlinkAll?_sheds h hq'
  refine ⟨ts, q', by rwa [h.entries_eq], hsheds, ?_, heq⟩
  have := hsheds.perm.length_eq
  rw [h.toList_eq, List.length_append, List.length_map, hlength, List.length_map] at this
  exact List.eq_nil_of_length_eq_zero (by omega)

end CompileQueue

/-! ### What a selector picks -/

namespace Selection

/-- The slots of the candidates that were found obsolete, and then that of the chosen one. -/
def slots (s : Selection) : List Nat := s.stale ++ s.chosen.toList

theorem slots_inOrder (cs : List Candidate) : (inOrder cs).slots.Sublist (cs.map (·.slot)) := by
  induction cs with
  | nil => exact List.Sublist.refl _
  | cons c cs ih =>
    rw [inOrder]
    split
    · exact ih.cons_cons c.slot
    · exact (List.nil_sublist _).cons_cons c.slot

section

variable {R : Type} [LT R] [DecidableLT R] {rate : Nat → Nat → R}

theorem better_mem {best : Option Candidate} {c d : Candidate} (h : better rate best c = some d) :
    best = some d ∨ d = c := by
  unfold better at h
  split at h
  · split at h
    · exact .inr (Option.some.inj h).symm
    · exact .inl h
  · exact .inr (Option.some.inj h).symm

theorem foldl_better_mem {cs : List Candidate} {best : Option Candidate} {d : Candidate}
    (h : cs.foldl (better rate) best = some d) : best = some d ∨ d ∈ cs := by
  induction cs generalizing best with
  | nil => exact .inl h
  | cons c cs ih =>
    rcases ih h with h | h
    · exact (better_mem h).imp_right fun (e : d = c) => e ▸ List.mem_cons_self
    · exact .inr (List.mem_cons_of_mem _ h)

theorem slots_byRank (rate : Nat → Nat → R) (cs : List Candidate) :
    (byRank rate cs).slots.Subperm (cs.map (·.slot)) := by
  have hsplit : ((cs.filter (·.obsolete)).map (·.slot) ++
      (cs.filter (!·.obsolete)).map (·.slot)).Perm (cs.map (·.slot)) := by
    rw [← List.map_append]
    exact (List.filter_append_perm _ cs).map _
  refine List.Subperm.trans ?_ hsplit.subperm
  refine (List.subperm_append_left _).2 ?_
  rw [byRank]
  cases h : (cs.filter (!·.obsolete)).foldl (better rate) none with
  | none => exact List.nil_subperm
  | some d =>
    rcases foldl_better_mem h with h' | h'
    · exact absurd h' (by simp)
    · exact List.singleton_subperm_iff.2 (List.mem_map_of_mem h')

end

end Selection

/-- A selector picks slots of candidates, and none twice. -/
theorem Selector.slots_select (s : Selector) (cs : List Candidate) :
    (s.select cs).slots.Subperm (cs.map (·.slot)) := by
  cases s with
  | fifo => exact (Selection.slots_inOrder cs).subperm
  | hottest => exact Selection.slots_byRank Rate.ofWait cs

end JitBroker
