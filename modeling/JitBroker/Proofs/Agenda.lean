import Mathlib.Algebra.Order.Group.Multiset
import Mathlib.Data.Multiset.Filter
import Mathlib.Tactic.Abel
import JitBroker.Proofs.Table
import JitBroker.System

/-!
# What threads still have to do

An invariant of a system mostly says how the records of the broker agree with the actions that the
threads have before them: a task that is not complete is in one queue or in the hands of one
thread, a lock is taken by one thread that will give it back, and so on. So the actions of all
agendas together matter, each as often as it occurs. A step consumes the first action of an agenda
and puts those of its turn in its place.

* `System.step_eq_some_iff`: what a step is, as an equation for the state after it;
* `System.pending_turned`: how a step changes the actions that are pending;
* `System.pending_park`: what is pending, but for the first actions of one thread;
* `System.Reachable.invariant`: what every kind of move preserves holds of every reachable state;
* `System.trace`: the actions that are run in a row of moves.
-/

namespace JitBroker

/-- Two members with a property count twice. -/
theorem two_le_countP {α : Type} {p : α → Prop} [DecidablePred p] {s : Multiset α} {a b : α}
    (ha : a ∈ s) (hb : b ∈ s) (hne : a ≠ b) (hpa : p a) (hpb : p b) : 2 ≤ s.countP p := by
  obtain ⟨rest, rfl⟩ := Multiset.exists_cons_of_mem ha
  have hrest : 0 < rest.countP p :=
    Multiset.countP_pos.2 ⟨b, (Multiset.mem_cons.1 hb).resolve_left (Ne.symm hne), hpb⟩
  rw [Multiset.countP_cons_of_pos _ hpa]
  omega

/-- The actions that a turn brings, to its own thread and to that of a worker it hires. -/
def Turn.brings (turn : Turn) : List Action :=
  turn.next ++ turn.hired.toList.map fun w => .worker w .start

namespace System

variable {s s' first : System} {i j : ThreadId} {ch : Choices} {t t' : Thread} {a a' : Action}
  {turn : Turn} {rest : List Action}

/-! ### Steps -/

/-- The threads after a turn of one of them. -/
def threadsAfter (s : System) (i : ThreadId) (turn : Turn) : Table Thread :=
  match turn.hired with
  | some w => (s.threads.modify i (·.after turn)).add (.ofWorker w)
  | none => s.threads.modify i (·.after turn)

/-- The system after a turn of one of its threads. -/
def turned (s : System) (i : ThreadId) (turn : Turn) : System where
  broker := turn.broker
  threads := s.threadsAfter i turn

@[simp] theorem broker_turned : (s.turned i turn).broker = turn.broker := rfl

@[simp] theorem broker_spawn (s : System) (t : Thread) : (s.spawn t).broker = s.broker := rfl

/-- A step runs the first action of a thread, and leads to the system after its turn. -/
theorem step_eq_some_iff : s.step i ch = some s' ↔
    ∃ t a rest turn, s.threads[i]? = some t ∧ t.agenda = a :: rest ∧
      a.run (t.caller i) ch s.broker = some turn ∧ s' = s.turned i turn := by
  constructor
  · intro h
    simp only [step, Option.bind_eq_bind, Option.bind_eq_some_iff] at h
    obtain ⟨t, ht, a, ha, turn, hrun, h⟩ := h
    obtain ⟨rest, hrest⟩ := List.head?_eq_some_iff.1 ha
    exact ⟨t, a, rest, turn, ht, hrest, hrun, (Option.some.inj h).symm⟩
  · rintro ⟨t, a, rest, turn, ht, ha, hrun, rfl⟩
    simp only [step, Option.bind_eq_bind, ht, ha, List.head?_cons, Option.bind_some, hrun]
    rfl

theorem Thread.agenda_after (ha : t.agenda = a :: rest) : (t.after turn).agenda = turn.next ++ rest := by
  simp [Thread.after, ha]

/-- The threads after a turn: the one that made it, the others, and a worker that was hired. -/
theorem threadsAfter_cases (ht : s.threads[i]? = some t)
    (h : (s.threadsAfter i turn)[j]? = some t') :
    (j = i ∧ t' = t.after turn) ∨ (j ≠ i ∧ s.threads[j]? = some t') ∨
      (j = s.threads.size ∧ ∃ w, turn.hired = some w ∧ t' = .ofWorker w) := by
  have old (h : (s.threads.modify i (·.after turn))[j]? = some t') :
      (j = i ∧ t' = t.after turn) ∨ (j ≠ i ∧ s.threads[j]? = some t') := by
    by_cases hij : i = j
    · subst hij
      rw [Table.getElem?_modify_self ht] at h
      exact .inl ⟨rfl, (Option.some.inj h).symm⟩
    · rw [Table.getElem?_modify_of_ne hij] at h
      exact .inr ⟨fun e => hij e.symm, h⟩
  unfold threadsAfter at h
  split at h
  · rename_i w hw
    rw [Table.getElem?_add, Table.size_modify] at h
    split at h
    · rename_i hj
      exact .inr (.inr ⟨hj, w, hw, (Option.some.inj h).symm⟩)
    · exact (old h).imp_right .inl
  · exact (old h).imp_right .inl

theorem threadsAfter_self (ht : s.threads[i]? = some t) :
    (s.threadsAfter i turn)[i]? = some (t.after turn) := by
  have hi := Table.lt_size_of_getElem? ht
  unfold threadsAfter
  split
  · rw [Table.getElem?_add_of_lt (by simpa using hi), Table.getElem?_modify_self ht]
  · exact Table.getElem?_modify_self ht _

theorem threadsAfter_of_ne (h : s.threads[j]? = some t') (hj : j ≠ i) :
    (s.threadsAfter i turn)[j]? = some t' := by
  have hlt := Table.lt_size_of_getElem? h
  unfold threadsAfter
  split
  · rw [Table.getElem?_add_of_lt (by simpa using hlt), Table.getElem?_modify_of_ne hj.symm, h]
  · rw [Table.getElem?_modify_of_ne hj.symm, h]

theorem getElem?_threads_spawn (h : s.threads[j]? = some t') :
    (s.spawn t).threads[j]? = some t' := by
  rw [spawn, Table.getElem?_add_of_lt (Table.lt_size_of_getElem? h), h]

/-! ### Pending actions -/

/-- The actions that the threads still have before them. -/
def pending (s : System) : Multiset Action := ↑(s.threads.toList.flatMap (·.agenda))

theorem mem_pending : a ∈ s.pending ↔
    ∃ (i : ThreadId) (t : Thread), s.threads[i]? = some t ∧ a ∈ t.agenda := by
  simp only [pending, Multiset.mem_coe, List.mem_flatMap, Table.mem_toList_iff]
  constructor
  · rintro ⟨t, ⟨i, ht⟩, ha⟩
    exact ⟨i, t, ht, ha⟩
  · rintro ⟨i, t, ht, ha⟩
    exact ⟨t, ⟨i, ht⟩, ha⟩

/-- A step consumes one action and brings those of its turn. -/
theorem pending_turned (ht : s.threads[i]? = some t) (ha : t.agenda = a :: rest) :
    (s.turned i turn).pending + {a} = s.pending + ↑turn.brings := by
  obtain ⟨l, r, hl, hr⟩ := Table.toList_split ht
  have hold : s.pending =
      ↑(l.flatMap (·.agenda)) + (↑rest + {a}) + ↑(r.flatMap (·.agenda)) := by
    rw [pending, hl, ← Multiset.coe_singleton, Multiset.coe_add, Multiset.coe_add,
      Multiset.coe_add, List.flatMap_append, List.flatMap_cons, ha, Multiset.coe_eq_coe,
      List.append_assoc]
    exact ((@List.perm_append_comm _ [a] rest).append_right _).append_left _
  have hnew : (s.turned i turn).pending =
      ↑(l.flatMap (·.agenda)) + (↑turn.next + ↑rest) + ↑(r.flatMap (·.agenda))
        + ↑(turn.hired.toList.map fun w => Action.worker w .start) := by
    simp only [Multiset.coe_add]
    unfold pending turned threadsAfter
    cases hh : turn.hired with
    | none =>
      simp only [hr, List.flatMap_append, List.flatMap_cons, Thread.agenda_after ha]
      simp
    | some w =>
      simp only [Table.toList_add, hr, List.flatMap_append, List.flatMap_cons,
        Thread.agenda_after ha]
      simp [Thread.ofWorker]
  rw [hold, hnew, Turn.brings, ← Multiset.coe_add]
  abel

/-- So it does with what is made of the actions. -/
theorem filterMap_pending_turned {β : Type} (f : Action → Option β) (ht : s.threads[i]? = some t)
    (ha : t.agenda = a :: rest) :
    (s.turned i turn).pending.filterMap f + ↑(f a).toList =
      s.pending.filterMap f + ↑(turn.brings.filterMap f) := by
  have h := congrArg (Multiset.filterMap f) (@pending_turned s i t a turn rest ht ha)
  rw [Multiset.filterMap_add, Multiset.filterMap_add, Multiset.filterMap_coe] at h
  have hone : Multiset.filterMap f {a} = ↑(f a).toList := by
    rw [← Multiset.coe_singleton, Multiset.filterMap_coe, List.filterMap_cons]
    cases f a <;> rfl
  rwa [hone] at h

theorem mem_pending_turned (ht : s.threads[i]? = some t) (ha : t.agenda = a :: rest)
    (h : a' ∈ (s.turned i turn).pending) : a' ∈ s.pending ∨ a' ∈ turn.brings := by
  have : a' ∈ (s.turned i turn).pending + {a} := Multiset.mem_add.2 (.inl h)
  rw [pending_turned ht ha] at this
  simpa using this

/-- What is pending after a step was pending before it, or is brought by it, or is the start of a
worker. -/
theorem mem_turned_cases (ht : s.threads[i]? = some t) (ha : t.agenda = a :: rest)
    (h : a' ∈ (s.turned i turn).pending) (hne : ∀ w, a' ≠ .worker w .start) :
    a' ∈ s.pending ∨ a' ∈ turn.next := by
  refine (mem_pending_turned ht ha h).imp_right fun h => (List.mem_append.1 h).resolve_right ?_
  rintro h
  obtain ⟨w, -, rfl⟩ := List.mem_map.1 h
  exact hne w rfl

/-- What is pending, and is not run by a step, is pending after it. -/
theorem mem_turned_of_ne (ht : s.threads[i]? = some t) (ha : t.agenda = a :: rest)
    (h : a' ∈ s.pending) (hne : a' ≠ a) : a' ∈ (s.turned i turn).pending := by
  have hmem : a' ∈ (s.turned i turn).pending + {a} :=
    pending_turned ht ha ▸ Multiset.mem_add.2 (.inl h)
  exact (Multiset.mem_add.1 hmem).resolve_right fun h => hne (Multiset.mem_singleton.1 h)

/-- What a step brings is pending after it. -/
theorem mem_turned_of_next (ht : s.threads[i]? = some t) (h : a' ∈ turn.next) :
    a' ∈ (s.turned i turn).pending :=
  mem_pending.2 ⟨i, _, threadsAfter_self ht, List.mem_append_left _ h⟩

/-- Where a worker is hired, its start is pending. -/
theorem mem_turned_of_hired {w : WorkerId} (i : ThreadId) (h : turn.hired = some w) :
    .worker w .start ∈ (s.turned i turn).pending := by
  have hthread : (s.threadsAfter i turn)[s.threads.size]? = some (.ofWorker w) := by
    rw [threadsAfter, h, Table.getElem?_add, Table.size_modify, if_pos rfl]
  exact mem_pending.2 ⟨_, _, hthread, List.mem_singleton_self _⟩

/-- The system with the agenda of one thread cut down to its end. -/
def park (s : System) (i : ThreadId) (rest : List Action) : System :=
  { s with threads := s.threads.modify i fun t => { t with agenda := rest } }

theorem pending_park {pre : List Action} (ht : s.threads[i]? = some t) (ha : t.agenda = pre ++ rest) :
    s.pending = ↑pre + (s.park i rest).pending := by
  obtain ⟨l, r, hl, hr⟩ := Table.toList_split ht
  have hold : s.pending = ↑(l.flatMap (·.agenda)) + (↑pre + ↑rest) + ↑(r.flatMap (·.agenda)) := by
    rw [pending, hl, Multiset.coe_add, Multiset.coe_add, Multiset.coe_add, List.flatMap_append,
      List.flatMap_cons, ha]
    simp only [List.append_assoc]
  have hnew : (s.park i rest).pending =
      ↑(l.flatMap (·.agenda)) + ↑rest + ↑(r.flatMap (·.agenda)) := by
    rw [pending, park, hr, Multiset.coe_add, Multiset.coe_add, List.flatMap_append,
      List.flatMap_cons, List.append_assoc]
  rw [hold, hnew]
  abel

/-- The threads of the system with one agenda cut down. -/
theorem getElem?_threads_park (ht : s.threads[i]? = some t)
    (h : (s.park i rest).threads[j]? = some t') :
    (j = i ∧ t' = { t with agenda := rest }) ∨ (j ≠ i ∧ s.threads[j]? = some t') := by
  by_cases hij : i = j
  · subst hij
    rw [park, Table.getElem?_modify_self ht] at h
    exact .inl ⟨rfl, (Option.some.inj h).symm⟩
  · rw [park, Table.getElem?_modify_of_ne hij] at h
    exact .inr ⟨fun e => hij e.symm, h⟩

@[simp] theorem pending_spawn (s : System) (t : Thread) :
    (s.spawn t).pending = s.pending + ↑t.agenda := by
  simp [pending, spawn]

theorem mem_pending_call {c : Call} {n : Nat} :
    a ∈ (s.call c n).pending ↔ a ∈ s.pending ∨ a ∈ c.agenda := by
  rw [call, pending_spawn, Multiset.mem_add, Multiset.mem_coe]

/-- A thread was there before a call, or carries it out. -/
theorem thread_call_cases {c : Call} {n : Nat} (h : (s.call c n).threads[j]? = some t) :
    s.threads[j]? = some t ∨ t = { initializers := n, agenda := c.agenda } := by
  rw [call, spawn, Table.getElem?_add] at h
  split at h
  · exact .inr (Option.some.inj h).symm
  · exact .inl h

/-- At first one thread is to start the broker. -/
theorem thread_launch {b : Broker} (h : (launch b).threads[j]? = some t) :
    t = { agenda := [.crew (.launch b.unitIds)] } := by
  rw [launch, Table.getElem?_add] at h
  split at h
  · exact (Option.some.inj h).symm
  · cases h

theorem agenda_launch {b : Broker} (h : (launch b).threads[j]? = some t) :
    t.agenda = [.crew (.launch b.unitIds)] := by
  rw [thread_launch h]

theorem mem_pending_launch {b : Broker} (h : a ∈ (launch b).pending) :
    a = .crew (.launch b.unitIds) := by
  obtain ⟨j, t, ht, ha⟩ := mem_pending.1 h
  exact List.mem_singleton.1 (agenda_launch ht ▸ ha)

@[simp] theorem pending_operate (s : System) (o : Operation) :
    (s.operate o).pending = s.pending := rfl

/-! ### Runs -/

theorem Reachable.trans {s₁ s₂ s₃ : System} (h₁ : Reachable s₁ s₂) (h₂ : Reachable s₂ s₃) :
    Reachable s₁ s₃ := by
  induction h₂ with
  | first => exact h₁
  | move m _ ih => exact ih.move m

/-- What holds at first and is preserved by every kind of move holds of every reachable state. -/
theorem Reachable.invariant {Inv : System → Prop} (hfirst : Inv first)
    (hstep : ∀ {s s' : System} {i : ThreadId} {ch : Choices},
      Reachable first s → Inv s → s.step i ch = some s' → Inv s')
    (hcall : ∀ {s : System} (c : Call) (n : Nat), Reachable first s → Inv s → Inv (s.call c n))
    (hoperate : ∀ {s : System} (o : Operation), Reachable first s → Inv s → Inv (s.operate o))
    (h : Reachable first s) : Inv s := by
  induction h with
  | first => exact hfirst
  | @move s m hr ih =>
    cases m with
    | step i ch =>
      cases hs : s.step i ch with
      | none => simpa [System.move, hs] using ih
      | some s' => simpa [System.move, hs] using hstep hr ih hs
    | call c n => exact hcall c n hr ih
    | operate o => exact hoperate o hr ih

/-! ### Traces -/

/-- The action that a move runs, if it is a step that is possible. -/
def ran (s : System) : Move → Option Action
  | .step i ch =>
    match s.threads[i]?, s.step i ch with
    | some t, some _ => t.agenda.head?
    | _, _ => none
  | .call _ _ | .operate _ => none

/-- The actions that are run in a row of moves. -/
def trace (s : System) : List Move → List Action
  | [] => []
  | m :: ms => (s.ran m).toList ++ (s.move m).trace ms

@[simp] theorem trace_append (s : System) (ms ms' : List Move) :
    s.trace (ms ++ ms') = s.trace ms ++ (ms.foldl move s).trace ms' := by
  induction ms generalizing s with
  | nil => rfl
  | cons m ms ih => rw [List.cons_append, trace, trace, ih, List.append_assoc, List.foldl_cons]

end System

end JitBroker
