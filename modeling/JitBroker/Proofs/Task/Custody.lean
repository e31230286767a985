import JitBroker.Proofs.Ledger.Known

/-!
# Who has a task

A task that is not complete is in one pair of hands: its requester brings it to the queue, or it is
in a queue, or a worker has it, or, once it was found stale, somebody who will complete it without
a compile. Beside that, a requester that waits has its own part in the task, and so has whoever
will free it. The parts that threads have in a task are counted by `share`, and `Fair` says how
many of each there are:

* before the task is complete, somebody is to complete it, nobody is to free it, and the requester
  waits or is still to begin to, if and only if it is expected to;
* once it is complete, nobody can complete it again, and there is one who waits for it, or one who
  is to free it, or it was freed.

Every event keeps this up (`Custody.shift`).
-/

namespace JitBroker

/-- The parts that a duty can have in a task. -/
inductive Part where
  /-- To bring it to its queue. -/
  | bring
  /-- To work on it and complete it. -/
  | work
  /-- To complete it as stale. -/
  | scrap
  /-- To write that it is stale. -/
  | spoil
  /-- To begin to wait for it. -/
  | attend
  /-- To wait for it. -/
  | sleep
  /-- To free it. -/
  | free
  deriving DecidableEq

theorem Part.forall {P : Part → Prop} : (∀ p, P p) ↔
    P .bring ∧ P .work ∧ P .scrap ∧ P .spoil ∧ P .attend ∧ P .sleep ∧ P .free := by
  constructor
  · exact fun h => ⟨h _, h _, h _, h _, h _, h _, h _⟩
  · rintro ⟨h₁, h₂, h₃, h₄, h₅, h₆, h₇⟩ p
    cases p <;> assumption

/-- The part of a duty in a task. -/
def Duty.part? (t : TaskId) : Duty → Option Part
  | .bring _ _ t' => if t' = t then some .bring else none
  | .attend _ t' => if t' = t then some .attend else none
  | .sleep t' _ => if t' = t then some .sleep else none
  | .free t' => if t' = t then some .free else none
  | .spoil t' => if t' = t then some .spoil else none
  | .scrap t' => if t' = t then some .scrap else none
  | .finish t' => if t' = t then some .work else none
  | .post _ p => if p.task? = some t then some .work else none
  | .outside _ _ | .desk _ _ _ | .unmark _ | .wake _ | .drain _ | .rouse | .nudge _ => none

/-- A duty has a part in one task at most. -/
theorem Duty.part?_of_ne {d : Duty} {t t' : TaskId} (h : d.part? t ≠ none) (ht : t' ≠ t) :
    d.part? t' = none := by
  cases d with
  | post w p =>
    simp only [part?, ne_eq, ite_eq_right_iff, reduceCtorEq, imp_false, not_not] at h ⊢
    exact fun heq => ht (Option.some.inj (heq.symm.trans h))
  | outside | desk | unmark | wake | drain | rouse | nudge => rfl
  | _ =>
    simp only [part?, ne_eq, ite_eq_right_iff, reduceCtorEq, imp_false, not_not] at h ⊢
    exact fun heq => ht (heq.symm.trans h)

/-- The part that an action has in a task. -/
def Action.part? (t : TaskId) (a : Action) : Option Part := a.duty?.bind (·.part? t)

/-- How many duties have a part in a task. -/
def share (ds : Multiset Duty) (t : TaskId) (p : Part) : Nat := ds.countP (·.part? t = some p)

section share

variable {ds ds' : Multiset Duty} {t : TaskId} {p : Part}

@[simp] theorem share_add : share (ds + ds') t p = share ds t p + share ds' t p :=
  Multiset.countP_add _ _ _

@[simp] theorem share_zero : share 0 t p = 0 := rfl

@[simp] theorem share_singleton (d : Duty) :
    share {d} t p = if d.part? t = some p then 1 else 0 := by
  unfold share
  rw [← Multiset.cons_zero, Multiset.countP_cons, Multiset.countP_zero, Nat.zero_add]

@[simp] theorem share_cons (d : Duty) (l : List Duty) :
    share ↑(d :: l) t p = (if d.part? t = some p then 1 else 0) + share ↑l t p := by
  unfold share
  rw [Multiset.coe_countP, Multiset.coe_countP, List.countP_cons, Nat.add_comm]
  simp

@[simp] theorem share_append (l l' : List Duty) :
    share ↑(l ++ l') t p = share ↑l t p + share ↑l' t p := by
  rw [← Multiset.coe_add, share_add]

/-- Stale tasks bring two parts each. -/
theorem share_discard (ts : List TaskId) :
    share ↑(ts.flatMap Duty.discard) t p =
      if p = .spoil ∨ p = .scrap then ts.count t else 0 := by
  induction ts with
  | nil => simp
  | cons t' ts ih =>
    rw [List.flatMap_cons, share_append, ih, List.count_cons]
    by_cases ht : t' = t <;> cases p <;> simp [Duty.discard, Duty.part?, ht, Nat.add_comm]

/-- Duties of a kind that has no part in tasks do not share any. -/
theorem share_map {α : Type} {f : α → Duty} (h : ∀ a, (f a).part? t = none) (l : List α) :
    share ↑(l.map f) t p = 0 := by
  refine Multiset.countP_eq_zero.2 fun d hd hp => ?_
  obtain ⟨a, -, rfl⟩ := List.mem_map.1 hd
  simp [h a] at hp

theorem share_pos_iff : 0 < share ds t p ↔ ∃ d ∈ ds, d.part? t = some p := Multiset.countP_pos

/-- Two duties with the same part in a task are two. -/
theorem two_le_share {d d' : Duty} (hd : d ∈ ds) (hd' : d' ∈ ds) (hne : d ≠ d')
    (hp : d.part? t = some p) (hp' : d'.part? t = some p) : 2 ≤ share ds t p :=
  two_le_countP hd hd' hne hp hp'

/-- Nobody has a part in a task that does not exist. -/
theorem share_eq_zero {l : Ledger} (h : ∀ d ∈ ds, d.Known l) (ht : l.tasks.size ≤ t) :
    share ds t p = 0 := by
  refine Multiset.countP_eq_zero.2 fun d hd hp => ?_
  have hk := h d hd
  refine Nat.not_lt.2 ht (?_ : t < l.tasks.size)
  cases d with
  | bring u m t' =>
    obtain ⟨-, -, x, hx, -⟩ := hk
    simp only [Duty.part?, Option.ite_none_right_eq_some] at hp
    exact hp.1 ▸ Table.lt_size_of_getElem? hx
  | attend u t' =>
    simp only [Duty.part?, Option.ite_none_right_eq_some] at hp
    exact hp.1 ▸ hk.2
  | post w q =>
    simp only [Duty.part?, Option.ite_none_right_eq_some] at hp
    exact hk.2 t hp.1
  | outside _ _ | desk _ _ _ | unmark _ | wake _ | drain _ | rouse | nudge _ => cases hp
  | sleep t' _ | free t' | spoil t' | scrap t' | finish t' =>
    simp only [Duty.part?, Option.ite_none_right_eq_some] at hp
    exact hp.1 ▸ hk

end share

/-- How often a task is in the queues. -/
def Ledger.queued (l : Ledger) (t : TaskId) : Nat := l.stocks.total fun st => st.list.toList.count t

/-- The result of a task that did not run. -/
def Task.Spoilt (x : Task) : Prop := x.result.success = false ∧ x.result.failure = some .stale

/-- The parts in a task add up. -/
structure Fair (x : Task) (queued : Nat) (n : Part → Nat) : Prop where
  /-- One is to complete the task, or the task is in a queue, while it may still run. -/
  keeper : n .bring + n .work + queued = if x.complete || x.stale then 0 else 1
  /-- One is to complete the task as stale, if it is. -/
  scrap : n .scrap = if x.stale && !x.complete then 1 else 0
  /-- The reason is written by that one. -/
  spoil : n .spoil ≤ n .scrap
  /-- Before the task is complete, nobody frees it, and a requester waits if it is expected to. -/
  before : x.complete = false → n .free = 0 ∧ x.freed = false ∧
    n .attend + n .sleep + (if x.blocking then n .bring else 0) = (x.blocking && x.awaited).toNat
  /-- Afterwards, the requester is still to look, or one is to free the task, or it was freed. -/
  after : x.complete = true → n .attend + n .sleep + n .free + x.freed.toNat = 1
  /-- The task counts the requesters that sleep. -/
  waiters : x.waiters = n .sleep
  /-- A task on its way to the queue has no slot. -/
  slot : 0 < n .bring → x.slot = none
  /-- The result of a stale task says so, once it is written. -/
  result : x.stale = true → 0 < n .spoil ∨ x.Spoilt

/-- The parts in all tasks add up. -/
def Custody (l : Ledger) (ds : Multiset Duty) : Prop :=
  ∀ (t : TaskId) (x : Task), l.tasks[t]? = some x → Fair x (l.queued t) (share ds t)

/-! ### What becomes of the parts -/

/-- One part goes, or none, and another one comes, or none. -/
def Moves (n n' : Part → Nat) (p p' : Option Part) : Prop :=
  ∀ r, n' r + (if p = some r then 1 else 0) = n r + (if p' = some r then 1 else 0)

namespace Fair

variable {x : Task} {q : Nat} {n n' : Part → Nat} {p : Part}

-- All numbers here are counts, so that `grind` is spared the search for ordered modules.

/-- The task is brought to a queue. -/
theorem append (h : Fair x q n) (slot : Nat)
    (hn : Moves n n' (some .bring) (if x.blocking then some .attend else none)) :
    Fair { x with slot := some slot } (q + 1) n' := by
  obtain ⟨hkeeper, hscrap, hspoil, hbefore, hafter, hwaiters, hslot, hresult⟩ := h
  cases hb : x.blocking <;> simp [Moves, Part.forall, hb] at hn <;>
    constructor <;> grind -linarith [Task.Spoilt]

/-- The requester goes to sleep. -/
theorem fallAsleep (h : Fair x q n) (hopen : x.complete = false)
    (hn : Moves n n' (some .attend) (some .sleep)) :
    Fair { x with waiters := x.waiters + 1 } q n' := by
  obtain ⟨hkeeper, hscrap, hspoil, hbefore, hafter, hwaiters, hslot, hresult⟩ := h
  simp [Moves, Part.forall] at hn
  constructor <;> grind -linarith [Task.Spoilt]

/-- The requester finds the task complete. -/
theorem findComplete (h : Fair x q n) (hcomplete : x.complete = true)
    (hn : Moves n n' (some .attend) (some .free)) : Fair x q n' := by
  obtain ⟨hkeeper, hscrap, hspoil, hbefore, hafter, hwaiters, hslot, hresult⟩ := h
  simp [Moves, Part.forall] at hn
  constructor <;> grind -linarith

/-- The requester turns away before it sleeps. -/
theorem findDisabled (h : Fair x q n) (hopen : x.complete = false)
    (hn : Moves n n' (some .attend) none) : Fair { x with awaited := false } q n' := by
  obtain ⟨hkeeper, hscrap, hspoil, hbefore, hafter, hwaiters, hslot, hresult⟩ := h
  have hle := Bool.toNat_le (x.blocking && x.awaited)
  simp [Moves, Part.forall] at hn
  constructor <;> grind -linarith [Task.Spoilt]

/-- The requester wakes up to the task being complete. -/
theorem wakeComplete (h : Fair x q n) (hcomplete : x.complete = true)
    (hn : Moves n n' (some .sleep) (some .free)) :
    Fair { x with waiters := x.waiters - 1 } q n' := by
  obtain ⟨hkeeper, hscrap, hspoil, hbefore, hafter, hwaiters, hslot, hresult⟩ := h
  simp [Moves, Part.forall] at hn
  constructor <;> grind -linarith [Task.Spoilt]

/-- The requester wakes up and gives up. -/
theorem leave (h : Fair x q n) (hopen : x.complete = false) (hn : Moves n n' (some .sleep) none) :
    Fair { x with waiters := x.waiters - 1, awaited := false } q n' := by
  obtain ⟨hkeeper, hscrap, hspoil, hbefore, hafter, hwaiters, hslot, hresult⟩ := h
  have hle := Bool.toNat_le (x.blocking && x.awaited)
  simp [Moves, Part.forall] at hn
  constructor <;> grind -linarith [Task.Spoilt]

/-- The task is freed. -/
theorem free (h : Fair x q n) (hn : Moves n n' (some .free) none) :
    Fair { x with freed := true } q n' := by
  obtain ⟨hkeeper, hscrap, hspoil, hbefore, hafter, hwaiters, hslot, hresult⟩ := h
  simp [Moves, Part.forall] at hn
  constructor <;> grind -linarith [Task.Spoilt]

/-- The reason is written. -/
theorem spoilt (h : Fair x q n) (hn : Moves n n' (some .spoil) none) :
    Fair (x.fail .stale) q n' := by
  obtain ⟨hkeeper, hscrap, hspoil, hbefore, hafter, hwaiters, hslot, hresult⟩ := h
  simp [Moves, Part.forall] at hn
  constructor <;> grind -linarith [Task.Spoilt, Task.fail]

/-- The task is completed, and its requester will free it. -/
theorem ring (h : Fair x q n) (hawaited : (x.blocking && x.awaited) = true)
    (hp : p = .scrap ∨ p = .work) (hspoil : n .spoil = 0) (hn : Moves n n' (some p) none) :
    Fair { x with complete := true }.ring q n' := by
  obtain ⟨hkeeper, hscrap, -, hbefore, hafter, hwaiters, hslot, hresult⟩ := h
  rcases hp with rfl | rfl <;> simp [Moves, Part.forall] at hn <;>
    constructor <;> grind -linarith [Task.Spoilt, Task.ring]

/-- The task is completed, and whoever did it will free it. -/
theorem close (h : Fair x q n) (hawaited : (x.blocking && x.awaited) = false)
    (hp : p = .scrap ∨ p = .work) (hspoil : n .spoil = 0)
    (hn : Moves n n' (some p) (some .free)) : Fair { x with complete := true } q n' := by
  obtain ⟨hkeeper, hscrap, -, hbefore, hafter, hwaiters, hslot, hresult⟩ := h
  rcases hp with rfl | rfl <;> simp [Moves, Part.forall] at hn <;>
    constructor <;> grind -linarith [Task.Spoilt]

/-- Nobody has found a task stale that a worker has. -/
theorem spoil_eq_zero (h : Fair x q n) (hwork : 0 < n .work) : n .spoil = 0 := by
  obtain ⟨hkeeper, hscrap, hspoil, -, -, -, -, -⟩ := h
  grind -linarith

/-- A worker writes the result. -/
theorem publish (h : Fair x q n) (result : TaskResult) (hwork : 0 < n .work) :
    Fair { x with result := result } q n := by
  obtain ⟨hkeeper, hscrap, hspoil, hbefore, hafter, hwaiters, hslot, hresult⟩ := h
  constructor <;> grind -linarith

end Fair

namespace Ledger

@[simp] theorem queued_lock (l : Ledger) (u : UnitId) (v : Bool) (t : TaskId) :
    (l.lock u v).queued t = l.queued t :=
  Table.total_modify_of_eq (fun _ => by rfl) _ _

/-- Replacing a queue changes how often a task is queued by the difference. -/
theorem queued_setStock {l : Ledger} {u : UnitId} {st : Stock} (hst : l.stocks[u]? = some st)
    (st' : Stock) (t : TaskId) :
    (l.setStock u st').queued t + st.list.toList.count t =
      l.queued t + st'.list.toList.count t :=
  Table.total_modify hst _ _

/-- Tasks that a queue sheds are in it no more. -/
theorem queued_sheds {l : Ledger} {u : UnitId} {st : Stock} {ts : List TaskId} {list : TaskList}
    (hst : l.stocks[u]? = some st) (hlist : st.list.Sheds ts list) (added : Nat) (locked : Bool)
    (t : TaskId) :
    (l.setStock u ⟨list, added, locked⟩).queued t + ts.count t = l.queued t := by
  have hq := queued_setStock hst ⟨list, added, locked⟩ t
  have hcount := hlist.count_add t
  simp only at hq
  omega

end Ledger

/-! ### Events -/

/-- The shares change by those of the duties that go and come. -/
theorem Shift.share {l l' : Ledger} {ds ds' : Multiset Duty} {d : Option Duty} {new : List Duty}
    {w : Option WorkerId} (h : Shift l ds d new w l' ds') (t : TaskId) (p : Part) :
    JitBroker.share ds' t p + JitBroker.share ↑d.toList t p =
      JitBroker.share ds t p + JitBroker.share ↑new t p := by
  have h := congrArg (JitBroker.share · t p) h.balance
  have hired : JitBroker.share ↑(w.toList.map fun w => Duty.post w .idle) t p = 0 := by
    cases w <;> simp [Duty.part?, Phase.task?]
  simpa [hired] using h

namespace Custody

variable {l l' : Ledger} {ds ds' : Multiset Duty}

/-- If no task changes, nor its place in the queues, nor who has a part in it, nothing does. -/
theorem of_same (hc : Custody l ds) (htasks : l'.tasks = l.tasks)
    (hqueued : ∀ t, l'.queued t = l.queued t) (hshare : ∀ t p, share ds' t p = share ds t p) :
    Custody l' ds' := by
  intro t x hx
  rw [hqueued, funext (hshare t)]
  exact hc t x (htasks ▸ hx)

/-- If only one task changes, it is enough to look at that one. -/
theorem of_modify {f : Task → Task} (hc : Custody l ds) (t₀ : TaskId)
    (htasks : l'.tasks = l.tasks.modify t₀ f) (hqueued : ∀ t ≠ t₀, l'.queued t = l.queued t)
    (hshare : ∀ t ≠ t₀, ∀ p, share ds' t p = share ds t p)
    (hfair : ∀ x, l.tasks[t₀]? = some x → Fair x (l.queued t₀) (share ds t₀) →
      Fair (f x) (l'.queued t₀) (share ds' t₀)) : Custody l' ds' := by
  intro t x hx
  rw [htasks] at hx
  by_cases ht : t₀ = t
  · subst ht
    rw [Table.getElem?_modify, if_pos rfl] at hx
    obtain ⟨y, hy, rfl⟩ := Option.map_eq_some_iff.1 hx
    exact hfair y hy (hc _ y hy)
  · rw [Table.getElem?_modify_of_ne ht] at hx
    rw [hqueued t (Ne.symm ht), funext (hshare t (Ne.symm ht))]
    exact hc t x hx

/-- If a duty that has a part in a task is traded for one that has, or for none, and only this task
changes, it is enough to see the part go and the other one come. -/
theorem of_moves {f : Task → Task} {d : Option Duty} {w : Option WorkerId} (hc : Custody l ds)
    (d' : Option Duty) (h : Shift l ds d d'.toList w l' ds') (t₀ : TaskId)
    (htasks : l'.tasks = l.tasks.modify t₀ f)
    (hqueued : ∀ t, l'.queued t = l.queued t) (hd : ∀ e ∈ d, e.part? t₀ ≠ none)
    (hd' : ∀ e ∈ d', e.part? t₀ ≠ none)
    (hfair : ∀ x, l.tasks[t₀]? = some x → Fair x (l.queued t₀) (share ds t₀) →
      Moves (share ds t₀) (share ds' t₀) (d.bind (·.part? t₀)) (d'.bind (·.part? t₀)) →
        Fair (f x) (l.queued t₀) (share ds' t₀)) : Custody l' ds' := by
  have hpart (e : Option Duty) (t : TaskId) (p : Part) :
      share ↑e.toList t p = if e.bind (·.part? t) = some p then 1 else 0 := by
    cases e <;> simp
  have hmoves (t : TaskId) :
      Moves (share ds t) (share ds' t) (d.bind (·.part? t)) (d'.bind (·.part? t)) := fun p => by
    rw [← hpart, ← hpart]
    exact h.share t p
  have hnone {e : Option Duty} (he : ∀ e' ∈ e, e'.part? t₀ ≠ none) {t : TaskId} (ht : t ≠ t₀) :
      e.bind (·.part? t) = none := Option.bind_eq_none_iff.2 fun e' he' =>
    Duty.part?_of_ne (he e' he') ht
  refine hc.of_modify t₀ htasks (fun t _ => hqueued t) (fun t ht p => ?_) fun x hx hf => ?_
  · simpa [hnone hd ht, hnone hd' ht] using hmoves t p
  · rw [hqueued]
    exact hfair x hx hf (hmoves t₀)

/-- It is so for a task that is known. -/
theorem of_moves_of_known {f : Task → Task} {d : Option Duty} {w : Option WorkerId} {x : Task}
    (hc : Custody l ds) (d' : Option Duty) (h : Shift l ds d d'.toList w l' ds') (t₀ : TaskId)
    (hx : l.tasks[t₀]? = some x) (htasks : l'.tasks = l.tasks.modify t₀ f)
    (hqueued : ∀ t, l'.queued t = l.queued t) (hd : ∀ e ∈ d, e.part? t₀ ≠ none)
    (hd' : ∀ e ∈ d', e.part? t₀ ≠ none)
    (hfair : Fair x (l.queued t₀) (share ds t₀) →
      Moves (share ds t₀) (share ds' t₀) (d.bind (·.part? t₀)) (d'.bind (·.part? t₀)) →
        Fair (f x) (l.queued t₀) (share ds' t₀)) : Custody l' ds' :=
  hc.of_moves d' h t₀ htasks hqueued hd hd' fun _ hy =>
    Option.some.inj (hx.symm.trans hy) ▸ hfair

/-- Tasks that are taken off a queue pass into other hands. -/
theorem of_withdrawn {stale chosen : List TaskId} (hc : Custody l ds)
    (htasks : Withdrawn l.tasks stale chosen l'.tasks)
    (hqueued : ∀ t, l'.queued t + (stale.count t + chosen.count t) = l.queued t)
    (hshare : ∀ t p, share ds' t p = share ds t p +
      match p with
      | .spoil | .scrap => stale.count t
      | .work => chosen.count t
      | _ => 0) : Custody l' ds' := by
  intro t x' hx'
  obtain ⟨x, hx⟩ := Table.exists_getElem?
    (Nat.lt_of_lt_of_eq (Table.lt_size_of_getElem? hx') htasks.size)
  obtain ⟨un, hx''⟩ := htasks.task hx
  obtain rfl := Option.some.inj (hx'.symm.trans hx'')
  obtain ⟨hkeeper, hscrap, hspoil, hbefore, hafter, hwaiters, hslot, hresult⟩ := hc t x hx
  have hq := hqueued t
  have hs := hshare t
  have hb := hs .bring; have hw := hs .work; have hsc := hs .scrap; have hsp := hs .spoil
  have ha := hs .attend; have hsl := hs .sleep; have hfr := hs .free
  simp only [Nat.add_zero] at hb ha hsl hfr hw hsc hsp
  have hstill (ht : t ∈ stale) : x.complete = false ∧ x.stale = false := by
    -- It was in a queue, so nobody had completed it or found it stale before.
    have hpos := List.count_pos_iff.2 ht
    split at hkeeper
    · omega
    · rename_i hopen
      simpa using hopen
  refine ⟨?_, ?_, ?_, ?_, ?_, ?_, ?_, ?_⟩
  · by_cases ht : t ∈ stale
    · obtain ⟨hcomplete, hstale⟩ := hstill ht
      have hpos := List.count_pos_iff.2 ht
      simp only [hcomplete, hstale, ht, Bool.or_self, Bool.false_eq_true, if_false] at hkeeper ⊢
      simp
      omega
    · have hzero := List.count_eq_zero.2 ht
      simp only [ht, decide_false, Bool.or_false]
      omega
  · by_cases ht : t ∈ stale
    · obtain ⟨hcomplete, hstale⟩ := hstill ht
      have hpos := List.count_pos_iff.2 ht
      simp only [hcomplete, hstale, Bool.or_self, Bool.false_eq_true, if_false] at hkeeper hscrap
      simp [hcomplete, ht]
      simp at hscrap
      omega
    · have hzero := List.count_eq_zero.2 ht
      simp only [ht, decide_false, Bool.or_false]
      omega
  · omega
  · rw [ha, hsl, hfr, hb]
    exact hbefore
  · rw [ha, hsl, hfr]
    exact hafter
  · rw [hsl]
    exact hwaiters
  · rw [hb]
    intro hpos
    simp only [hslot hpos, ite_self]
  · intro hstale
    by_cases ht : t ∈ stale
    · exact .inl (by have := List.count_pos_iff.2 ht; omega)
    · simp only [ht, decide_false, Bool.or_false] at hstale
      refine (hresult hstale).imp (fun h => ?_) id
      omega

/-- A new task is in the hands of the requester that asked for it. -/
theorem of_allocate {u : UnitId} {m : MethodId} {x : Task} (hc : Custody l ds) (hs : l.Sound)
    (hk : ∀ d ∈ ds, d.Known l) (htasks : l'.tasks = l.tasks.add x) (hstocks : l'.stocks = l.stocks)
    (hshare : ∀ t p, share ds' t p =
      share ds t p + share ↑[Duty.bring u m l.tasks.size] t p)
    (hx : x.complete = false ∧ x.stale = false ∧ x.freed = false ∧ x.awaited = x.blocking ∧
      x.waiters = 0 ∧ x.slot = none) : Custody l' ds' := by
  have hqueued (t : TaskId) : l'.queued t = l.queued t :=
    congrArg (fun stocks => stocks.total fun st => st.list.toList.count t) hstocks
  intro t y hy
  rw [htasks, Table.getElem?_add] at hy
  rw [hqueued, funext (hshare t)]
  split at hy
  · rename_i ht
    obtain rfl := Option.some.inj hy
    have hzero : l.queued t = 0 := Table.total_eq_zero_iff.2 fun u st hst =>
      List.count_eq_zero.2 fun hmem => Nat.lt_irrefl _ (ht ▸ hs.queued hst t hmem)
    have hnone (p : Part) : share ds t p = 0 := share_eq_zero hk (Nat.le_of_eq ht.symm)
    obtain ⟨hcomplete, hstale, hfreed, hawaited, hwaiters, hslot⟩ := hx
    subst ht
    constructor <;> simp [hzero, hnone, Duty.part?, hcomplete, hstale, hfreed, hawaited,
      hwaiters, hslot]
    cases x.blocking <;> rfl
  · rename_i ht
    have hsame (p : Part) : share ↑[Duty.bring u m l.tasks.size] t p = 0 := by
      simp [Duty.part?, Ne.symm ht]
    simp only [hsame, Nat.add_zero]
    exact hc t y hy

/-- Every event keeps the parts in each task in balance. A task is only completed as stale once its
reason is written. -/
theorem shift {d : Option Duty} {new : List Duty} {w : Option WorkerId} (hc : Custody l ds)
    (hs : l.Sound) (hk : ∀ d ∈ ds, d.Known l) (h : Shift l ds d new w l' ds')
    (hwritten : ∀ t, d = some (.scrap t) → share ds t .spoil = 0) : Custody l' ds' := by
  have hsh := h.share
  have hmem := h.mem
  have hquiet {t : TaskId} {x : Task} (hd : d = some (.finish t))
      (hf : Fair x (l.queued t) (share ds t)) : share ds t .spoil = 0 :=
    hf.spoil_eq_zero (share_pos_iff.2 ⟨.finish t, hmem _ hd, by simp [Duty.part?]⟩)
  cases h.event with
  | plain d | know d => exact hc.of_same rfl (fun _ => rfl) fun t p => by simpa using hsh t p
  | enter _ _ | refuse _ | lookIn _ _ _ | unclaim =>
    exact hc.of_same rfl (fun _ => Ledger.queued_lock _ _ _ _) fun t p => by
      simpa [Duty.part?, Phase.task?] using hsh t p
  | lookOut hp ha ha' =>
    refine hc.of_same rfl (fun _ => Ledger.queued_lock _ _ _ _) fun t p => ?_
    rcases ha with rfl | rfl <;> rcases ha' with rfl | rfl <;>
      simpa [Duty.part?, Phase.task?] using hsh t p
  | allocate hpool r id blocking now =>
    refine hc.of_allocate (u := 0) (m := 0) hs hk rfl rfl (fun t p => ?_) ⟨rfl, rfl, rfl, rfl, rfl, rfl⟩
    simpa [Duty.part?] using hsh t p
  | @stamp u m t depth =>
    refine hc.of_modify t rfl (fun _ _ => rfl) (fun t ht p => by simpa using hsh t p)
      fun x hx hf => ?_
    rw [show share ds' t = share ds t from funext fun p => by simpa using hsh t p]
    exact { hf with }
  | @append u m t x st list hx hst hlist slot =>
    have hq (t' : TaskId) := Ledger.queued_setStock hst ⟨list, st.added + 1, false⟩ t'
    simp only [hlist.toList_eq, List.count_append, List.count_singleton] at hq
    refine hc.of_modify t rfl (fun t' ht => ?_) (fun t' ht p => ?_) fun y hy hf => ?_
    · have := hq t'
      simp only [beq_iff_eq, ht.symm, if_false] at this
      exact Nat.add_right_cancel this
    · have := hsh t' p
      split at this <;> simpa [Duty.part?, ht.symm] using this
    · obtain rfl := Option.some.inj (hx.symm.trans hy)
      have hq := hq t
      simp only [beq_self_eq_true, if_true] at hq
      have hone : (l.setStock u ⟨list, st.added + 1, false⟩).queued t = l.queued t + 1 :=
        Nat.add_right_cancel (hq.trans (by rw [← Nat.add_assoc, Nat.add_right_comm]))
      refine Eq.subst (motive := fun q => Fair _ q _) hone.symm (hf.append slot fun p => ?_)
      have := hsh t p
      split at this <;> simpa [Duty.part?, *] using this
  | @fallAsleep u t x hx hopen hd =>
    refine hc.of_moves_of_known (some _) h t hx rfl (fun _ => rfl) (by simp [Duty.part?])
      (by simp [Duty.part?]) fun hf hm => ?_
    exact hf.fallAsleep hopen (by simpa [Duty.part?] using hm)
  | @findComplete u t x hx hcomplete =>
    have hsame : l.tasks = l.tasks.modify t id := (Table.modify_eq_self fun _ => rfl).symm
    refine hc.of_moves_of_known (some _) h t hx hsame (fun _ => rfl) (by simp [Duty.part?])
      (by simp [Duty.part?]) fun hf hm => ?_
    exact hf.findComplete hcomplete (by simpa [Duty.part?] using hm)
  | @findDisabled u t x hx hopen =>
    refine hc.of_moves_of_known none h t hx rfl (fun _ => rfl) (by simp [Duty.part?])
      (by simp) fun hf hm => ?_
    exact hf.findDisabled hopen (by simpa [Duty.part?] using hm)
  | @wakeComplete t bell x hx hcomplete =>
    refine hc.of_moves_of_known (some _) h t hx rfl (fun _ => rfl) (by simp [Duty.part?])
      (by simp [Duty.part?]) fun hf hm => ?_
    exact hf.wakeComplete hcomplete (by simpa [Duty.part?] using hm)
  | @leave t bell x hx hopen =>
    refine hc.of_moves_of_known none h t hx rfl (fun _ => rfl) (by simp [Duty.part?])
      (by simp) fun hf hm => ?_
    exact hf.leave hopen (by simpa [Duty.part?] using hm)
  | @free t who =>
    refine hc.of_moves none h t rfl (fun _ => rfl) (by simp [Duty.part?])
      (by simp) fun x _ hf hm => ?_
    exact hf.free (by simpa [Duty.part?] using hm)
  | @spoil t =>
    refine hc.of_moves none h t rfl (fun _ => rfl) (by simp [Duty.part?])
      (by simp) fun x _ hf hm => ?_
    exact hf.spoilt (by simpa [Duty.part?] using hm)
  | @ring t x d hd hx hawaited =>
    rcases hd with rfl | rfl <;>
      refine hc.of_moves_of_known none h t hx rfl (fun _ => rfl) (by simp [Duty.part?])
        (by simp) fun hf hm => ?_
    · exact hf.ring hawaited (.inl rfl) (hwritten t rfl) (by simpa [Duty.part?] using hm)
    · exact hf.ring hawaited (.inr rfl) (hquiet rfl hf) (by simpa [Duty.part?] using hm)
  | @close t x d hd hx hawaited =>
    rcases hd with rfl | rfl <;>
      refine hc.of_moves_of_known (some _) h t hx rfl (fun _ => rfl) (by simp [Duty.part?])
        (by simp [Duty.part?]) fun hf hm => ?_
    · exact hf.close hawaited (.inl rfl) (hwritten t rfl) (by simpa [Duty.part?] using hm)
    · exact hf.close hawaited (.inr rfl) (hquiet rfl hf) (by simpa [Duty.part?] using hm)
  | @wake t =>
    refine hc.of_modify t rfl (fun _ _ => rfl) (fun t' ht p => ?_) fun x hx hf => ?_
    · simpa [Duty.part?] using hsh t' p
    · rw [show share ds' t = share ds t from funext fun p => by simpa [Duty.part?] using hsh t p]
      exact { hf with }
  | disable hopen =>
    refine hc.of_same rfl (fun _ => rfl) fun t p => ?_
    have hnone : share _ t p = 0 := share_map (f := .drain) (fun _ => rfl) (List.range l.stocks.size)
    simpa [hnone, Duty.part?] using hsh t p
  | rouse =>
    refine hc.of_same rfl (fun _ => rfl) fun t p => ?_
    have hnone : share _ t p = 0 := share_map (f := .nudge) (fun _ => rfl) l.crews.toList.flatten
    have hsh := hsh t p
    rw [hnone] at hsh
    simpa [Duty.part?] using hsh
  | @nudge w post hp =>
    refine hc.of_same rfl (fun _ => rfl) fun t p => ?_
    have hnone : share _ t p = 0 := share_map (f := .wake) (fun _ => rfl) post.current.toList
    simpa [hnone, Duty.part?] using hsh t p
  | @drain u st ts list tasks hst hfree hlist hempty htasks =>
    refine hc.of_withdrawn htasks (fun t => ?_) fun t p => ?_
    · exact Ledger.queued_sheds hst hlist _ _ t
    · have := hsh t p
      simp [share_discard, Duty.part?] at this
      cases p <;> simpa using this
  | @fetch w p st ts t₀ list tasks hp hst hlist htasks =>
    refine hc.of_withdrawn htasks (fun t => ?_) fun t r => ?_
    · rw [← List.count_append]
      exact Ledger.queued_sheds hst hlist _ _ t
    · have := hsh t r
      simp [share_discard, Duty.part?, Phase.task?] at this
      cases r <;> simpa [List.count_singleton] using this
  | @clean w p st ts list tasks a locked hp hst hlist htasks ha =>
    refine hc.of_withdrawn htasks (fun t => ?_) fun t r => ?_
    · exact Ledger.queued_sheds hst hlist _ _ t
    · have := hsh t r
      rcases ha with ⟨rfl, -⟩ | ⟨rfl, -⟩ <;> simp [share_discard, Duty.part?, Phase.task?] at this <;>
        cases r <;> simpa using this
  | judge ha =>
    refine hc.of_same rfl (fun _ => rfl) fun t p => ?_
    rcases ha with rfl | rfl <;> simpa [Duty.part?, Phase.task?] using hsh t p
  | @publish w t result =>
    have hone : 0 < share ds t .work := by
      exact share_pos_iff.2 ⟨.post w (.closed t), hmem _ rfl, by simp [Duty.part?, Phase.task?]⟩
    refine hc.of_modify t rfl (fun _ _ => rfl) (fun t' ht p => ?_) fun x hx hf => ?_
    · simpa [Duty.part?, Phase.task?] using hsh t' p
    · rw [show share ds' t = share ds t from funext fun p => by
        simpa [Duty.part?, Phase.task?, Nat.add_comm] using hsh t p]
      exact hf.publish result hone
  | arrive _ | name _ | turnAway | pass _ | claim _ | sleepOn _ _ _ | unmark _ | stay _ | take
  | compile _ | giveUp _ | drop | release _ | retire _ _ | desert | quit | hire _ =>
    exact hc.of_same rfl (fun _ => rfl) fun t p => by
      simpa [Duty.part?, Phase.task?] using hsh t p

end Custody

end JitBroker
