import Mathlib.Data.Finset.Card
import JitBroker.Proofs.Pause.Hush
import JitBroker.Proofs.Rest.Alert

/-!
# Guards and those who are parked

A thread that polls the pause gate reads a flag first, without the lock of the gate. If a pause is
asked for it looks again under the lock, and parks if there is a guard; it sleeps until the bell
rings, which may have rung for a guard that another one has followed. Each section under the lock is
one step, so in every state the lock is free.

What the flag and the counts of the gate have to agree with is which guards are alive and who is
parked. Guards are held outside of the broker. So a *gatehouse* is a system together with the guards
that are alive, each with a name of its own: they are acquired and dropped in any order, by
back-ends too, and besides the workers any number of other threads may come to poll the gate
(`Gatehouse.move`).

* `GateStep.run_eq_some_iff`: what a step at the gate leads to;
* `System.gate_move` and `System.parksAlike_move`: any other move changes the gate by the operation
  that it does, and leaves those who are parked where they are;
* `Gatehouse.Sound.move`: every move leaves as many guards alive and as many threads parked as the
  gate counts, and leaves whoever is parked with a bell to hear or a guard to wait for;
* `Gatehouse.gated_of_run`: so after every run the flag tells whether a guard is alive, nobody gets
  past a guard, and without one nobody parks and nobody stays parked.
-/

namespace JitBroker

variable {me : Caller} {ch : Choices} {b : Broker} {a : Action} {turn : Turn} {g : GateStep}
  {th : Thread} {rest : List Action}

/-! ### Steps at the gate -/

theorem PauseGate.guards_release (g : PauseGate) : g.release.guards = g.guards - 1 := by
  unfold release
  split
  · simp only
    omega
  · rfl

theorem PauseGate.parked_release (g : PauseGate) : g.release.parked = g.parked := by
  unfold release
  split <;> rfl

/-- What a step at the gate leads to. -/
inductive GateStep.Leads (b : Broker) : GateStep → Turn → Prop where
  /-- No pause is asked for. -/
  | passes (h : b.gate.requested = false) : Leads b .poll { broker := b }
  /-- A pause is asked for. -/
  | asks (h : b.gate.requested = true) : Leads b .poll { broker := b, next := [.gate .park] }
  /-- The last guard has been dropped meanwhile. -/
  | slips (h : b.gate.guards = 0) : Leads b .park { broker := b }
  /-- The thread parks. -/
  | parks (h : b.gate.guards ≠ 0) : Leads b .park
      { broker := { b with gate := b.gate.park }, next := [.gate (.parked b.gate.bell)] }
  /-- The thread has heard the bell, and leaves. -/
  | leaves {bell : Nat} (hbell : b.gate.bell ≠ bell) (h : b.gate.guards = 0) :
    Leads b (.parked bell) { broker := { b with gate := b.gate.leave } }
  /-- The thread has heard the bell, but there is a guard again. -/
  | stays {bell : Nat} (hbell : b.gate.bell ≠ bell) (h : b.gate.guards ≠ 0) :
    Leads b (.parked bell) { broker := b, next := [.gate (.parked b.gate.bell)] }

/-- There are no other steps at the gate. -/
theorem GateStep.run_eq_some_iff : g.run b = some turn ↔ g.Leads b turn := by
  constructor
  · intro h
    cases g with
    | poll =>
      obtain rfl := Option.some.inj h
      cases hrequested : b.gate.requested
      · exact .passes hrequested
      · exact .asks hrequested
    | park =>
      rw [run] at h
      split at h
      all_goals obtain rfl := Option.some.inj h
      · exact .slips ‹_›
      · exact .parks ‹_›
    | parked bell =>
      rw [run] at h
      repeat' split at h
      · cases h
      all_goals obtain rfl := Option.some.inj h
      · exact .leaves ‹_› ‹_›
      · exact .stays ‹_› ‹_›
  · intro h
    cases h with
    | passes h | asks h => simp [run, Turn.go, h]
    | slips h | parks h => simp [run, Turn.go, h]
    | leaves hbell h | stays hbell h => simp [run, Turn.go, hbell, h]

/-- Whether a thread at this step is parked. -/
def GateStep.isParked : GateStep → Bool
  | .parked _ => true
  | _ => false

/-- Whether a thread at this action is parked. -/
def Action.parks : Action → Bool
  | .gate g => g.isParked
  | _ => false

/-- Whether a thread is parked, and has not left yet. -/
def Thread.isParked (th : Thread) : Bool := th.agenda.head?.any (·.parks)

theorem Action.any_head?_of_forall {as : List Action} (h : ∀ a ∈ as, a.parks = false) :
    as.head?.any (·.parks) = false := by
  cases as with
  | nil => rfl
  | cons a as => exact h a List.mem_cons_self

theorem Action.mem_of_drop {next : List Action} (hnext : next.drop 1 = [])
    (h : a ∈ (next ++ rest).drop 1) : a ∈ rest := by
  cases next with
  | nil => exact List.mem_of_mem_drop h
  | cons a' next =>
    obtain rfl : next = [] := hnext
    exact h

theorem Thread.isParked_of_forall (h : ∀ a ∈ th.agenda, a.parks = false) : th.isParked = false :=
  Action.any_head?_of_forall h

/-- Whether a thread is parked after a turn is up to what the turn brings. -/
theorem Thread.isParked_after (ha : th.agenda = a :: rest) (hrest : ∀ a' ∈ rest, a'.parks = false) :
    (th.after turn).isParked = turn.next.head?.any (·.parks) := by
  rw [isParked, System.Thread.agenda_after ha]
  cases turn.next with
  | nil => exact Action.any_head?_of_forall hrest
  | cons a' next => rfl

theorem Thread.exists_of_isParked (h : th.isParked = true) :
    ∃ g rest, th.agenda = .gate g :: rest ∧ g.isParked = true := by
  rw [isParked] at h
  cases hagenda : th.agenda with
  | nil =>
    rw [hagenda] at h
    cases h
  | cons a rest =>
    rw [hagenda] at h
    cases a with
    | gate g => exact ⟨g, rest, rfl, h⟩
    | _ => cases h

/-- A turn that leaves nothing behind changes the agenda of its thread only. -/
theorem Thread.after_of_reply (ha : th.agenda = a :: rest) (h : turn.reply = none) :
    th.after turn = { th with agenda := turn.next ++ rest } := by
  rw [after, ha, h, Option.none_or, List.drop_one, List.tail_cons]

/-- What a step at the gate leaves as it is, and what it changes. -/
structure GateStep.Passage (b : Broker) (g : GateStep) (turn : Turn) : Prop where
  /-- The same guards are counted. -/
  guards : turn.broker.gate.guards = b.gate.guards
  /-- No bell rings. -/
  bell : turn.broker.gate.bell = b.gate.bell
  /-- The thread is counted if it parks, and not any more if it leaves. -/
  parked : (g.isParked = true → 0 < b.gate.parked) → turn.broker.gate.parked + g.isParked.toNat =
    b.gate.parked + (turn.next.head?.any (·.parks)).toNat
  /-- One action is brought at most. -/
  next : turn.next.drop 1 = []
  /-- Who is parked after it has heard all bells and seen a guard. -/
  woken : ∀ {bell : Nat}, .gate (.parked bell) ∈ turn.next →
    bell = b.gate.bell ∧ 0 < b.gate.guards

theorem GateStep.Leads.passage (h : g.Leads b turn) : g.Passage b turn := by
  cases h with
  | passes _ | slips _ =>
    exact ⟨rfl, rfl, fun _ => rfl, rfl, fun hmem => absurd hmem List.not_mem_nil⟩
  | asks _ => exact ⟨rfl, rfl, fun _ => rfl, rfl, fun hmem => by cases List.mem_singleton.1 hmem⟩
  | parks h =>
    refine ⟨rfl, rfl, fun _ => rfl, rfl, fun hmem => ?_⟩
    obtain ⟨⟩ := List.mem_singleton.1 hmem
    exact ⟨rfl, Nat.pos_of_ne_zero h⟩
  | leaves hbell h =>
    exact ⟨rfl, rfl, fun hpos => Nat.sub_add_cancel (hpos rfl), rfl,
      fun hmem => absurd hmem List.not_mem_nil⟩
  | stays hbell h =>
    refine ⟨rfl, rfl, fun _ => rfl, rfl, fun hmem => ?_⟩
    obtain ⟨⟩ := List.mem_singleton.1 hmem
    exact ⟨rfl, Nat.pos_of_ne_zero h⟩

/-! ### Who goes to the gate -/

theorem Action.parks_of_dozes (h : (!a.dozes) = true) : a.parks = false := by
  cases a with
  | gate g => cases g <;> first | rfl | cases h
  | _ => rfl

/-- Nobody parks but at the gate. -/
theorem WorkerStep.unparked {w : WorkerId} {worker : Worker} {unit : TierUnit} {s : WorkerStep}
    (hu : b.units[worker.unit]? = some unit) (hsound : b.ledger.Sound)
    (h : s.run me ch b w worker unit = some turn) : ∀ a ∈ turn.next, a.parks = false := by
  have of_all (hall : turn.next.all (!·.dozes) = true) : ∀ a ∈ turn.next, a.parks = false :=
    fun a ha => Action.parks_of_dozes (List.all_eq_true.1 hall a ha)
  cases s with
  | start =>
    rcases start_turn h with ⟨-, hall⟩ | ⟨-, hnext, -⟩
    · exact of_all hall
    · rw [hnext]
      exact List.forall_mem_singleton.2 rfl
  | starting => exact of_all (starting_turn h).1
  | lookEmpty =>
    rw [run] at h
    split at h <;> obtain rfl := Option.some.inj h <;>
      exact List.forall_mem_singleton.2 rfl
  | _ =>
    exact of_all ((stirs hu hsound h WorkerStep.noConfusion WorkerStep.noConfusion).2
      WorkerStep.noConfusion)

/-- Only workers go to the gate, and those who are there go on there. -/
theorem Action.gate_or_worker_of_brings (h : a.kind.brings .gate = true) :
    (∃ g, a = .gate g) ∨ ∃ w st, a = .worker w st := by
  cases a with
  | gate g => exact .inl ⟨g, rfl⟩
  | worker w st => exact .inr ⟨w, st, rfl⟩
  | request s | control s => cases s <;> cases h
  | task s => rcases Action.kind_task s with hk | hk <;> rw [hk] at h <;> cases h
  | _ => cases h

namespace System

variable {s s' : System} {m : Move} {i : ThreadId}

/-- Who is sent to the gate is not parked yet. -/
theorem Runs.unparked (hs : s.Lawful) (h : s.Runs m i ch th a rest turn)
    (hgate : ∀ g, a ≠ .gate g) : ∀ a' ∈ turn.next, a'.parks = false := by
  intro a' ha'
  cases a' with
  | gate g =>
    obtain ⟨w, st, rfl⟩ := (Action.gate_or_worker_of_brings
      (Action.brings_of_run h.run _ ha')).resolve_left fun ⟨g, hg⟩ => hgate g hg
    have hknown := hs.known _ (mem_duties.2 ⟨_, h.mem_pending, rfl⟩)
    obtain ⟨worker, unit, -, hu, hrun⟩ := Action.worker_run hs.sound hknown.1 h.run
    exact WorkerStep.unparked hu hs.sound hrun _ ha'
  | _ => rfl

/-! ### The gate after a move -/

/-- A move that is no step at the gate changes the gate by its operation only. -/
theorem gate_move (hs : s.Lawful) (hm : ∀ g, s.ran m ≠ some (.gate g)) :
    (s.move m).broker.gate = match s.operation? m with
      | some .pause => s.broker.gate.pause
      | some .unpause =>
        if s.broker.gate.guards = 0 then s.broker.gate else s.broker.gate.release
      | _ => s.broker.gate := by
  rcases s.move_cases hs m with ⟨o, ho, hmove⟩ | ⟨hop, ⟨-, hmove⟩ | ⟨i, ch, th, a, rest, turn, h⟩⟩
  · rw [hmove, ho, (s.broker.operate_operated o).gate]
    cases o <;> rfl
  · rw [hmove, hop]
  · rw [h.turned, broker_turned, hop]
    cases Action.refits h.run with
    | keeps hfit => exact hfit.gate
    | park | leave => exact absurd h.ran (hm _)
    | operate ho => exact absurd ho (h.not_operate hop)
    | _ => rfl

/-- What a step at the gate leads to is where the system gets by it. -/
theorem exists_leads (h : s.ran m = some (.gate g)) :
    s.operation? m = none ∧ ∃ i th rest turn, s.threads[i]? = some th ∧
      th.agenda = .gate g :: rest ∧ g.Leads s.broker turn ∧ s.move m = s.turned i turn := by
  obtain ⟨i, ch, th, rest, turn, hruns⟩ := exists_runs h
  refine ⟨?_, i, th, rest, turn, hruns.thread, hruns.agenda, GateStep.run_eq_some_iff.1 hruns.run,
    hruns.turned⟩
  rw [hruns.move, operation?, ← hruns.move, h]

/-- A step at the gate does no operation. -/
theorem not_gate_of_operation {o : Operation} (h : s.operation? m = some o) (g : GateStep) :
    s.ran m ≠ some (.gate g) := fun hran => by cases (exists_leads hran).1.symm.trans h

/-! ### Threads that are parked -/

/-- How many threads are parked. -/
def parkedThreads (s : System) : Nat := s.threads.toList.countP (·.isParked)

theorem parkedThreads_eq_total (s : System) :
    s.parkedThreads = s.threads.total fun th => th.isParked.toNat := (Table.total_toNat _ _).symm

theorem parkedThreads_spawn (h : th.isParked = false) :
    (s.spawn th).parkedThreads = s.parkedThreads := by
  simp only [parkedThreads_eq_total, spawn, Table.total_add, h, Bool.toNat_false, Nat.add_zero]

/-- A turn changes whether its own thread is parked. -/
theorem parkedThreads_turned (turn : Turn) (hth : s.threads[i]? = some th) :
    (s.turned i turn).parkedThreads + th.isParked.toNat =
      s.parkedThreads + (th.after turn).isParked.toNat := by
  have hmodify := Table.total_modify hth (·.after turn) fun th => th.isParked.toNat
  rw [parkedThreads_eq_total, parkedThreads_eq_total, ← hmodify]
  simp only [turned, threadsAfter]
  split
  · rw [Table.total_add]
    rfl
  · rfl

/-- Each thread is as it was, or has no action at which it would be parked; and there are as many
parked threads as before. -/
structure ParksAlike (s s' : System) : Prop where
  /-- As many are parked. -/
  count : s'.parkedThreads = s.parkedThreads
  /-- They are the same. -/
  thread : ∀ {i : ThreadId} {th : Thread}, s'.threads[i]? = some th →
    s.threads[i]? = some th ∨ ∀ a ∈ th.agenda, a.parks = false

theorem ParksAlike.of_threads (h : s'.threads = s.threads) : s.ParksAlike s' :=
  ⟨by rw [parkedThreads, h, parkedThreads], fun hth => .inl (h ▸ hth)⟩

/-- A new thread is not parked. -/
theorem parksAlike_spawn (h : ∀ a ∈ th.agenda, a.parks = false) : s.ParksAlike (s.spawn th) where
  count := parkedThreads_spawn (Thread.isParked_of_forall h)
  thread hth := by
    rw [spawn, Table.getElem?_add] at hth
    split at hth
    · exact .inr (Option.some.inj hth ▸ h)
    · exact .inl hth

/-- Nobody is parked but at the first of its actions. -/
def Fronted (s : System) : Prop :=
  ∀ {i : ThreadId} {th : Thread}, s.threads[i]? = some th → ∀ a ∈ th.agenda.drop 1, a.parks = false

/-- A step that is not made at the gate parks nobody, and is not that of a parked thread. -/
theorem Runs.parksAlike (hs : s.Lawful) (hfront : s.Fronted) (h : s.Runs m i ch th a rest turn)
    (hgate : ∀ g, a ≠ .gate g) : s.ParksAlike (s.move m) := by
  have hagenda : (th.after turn).agenda = turn.next ++ rest := Thread.agenda_after h.agenda
  have hrest : ∀ a' ∈ rest, a'.parks = false := by
    have hdrop := hfront h.thread
    rwa [h.agenda] at hdrop
  have hnone : ∀ a' ∈ (th.after turn).agenda, a'.parks = false := by
    rw [hagenda]
    exact fun a' ha' => (List.mem_append.1 ha').elim (h.unparked hs hgate a') (hrest a')
  have hbefore : th.isParked = false := by
    rw [Thread.isParked, h.agenda]
    cases a with
    | gate g => exact absurd rfl (hgate g)
    | _ => rfl
  rw [h.turned]
  constructor
  · have hcount := parkedThreads_turned turn h.thread
    rwa [hbefore, Thread.isParked_of_forall hnone] at hcount
  · intro j t ht
    rcases threadsAfter_cases h.thread ht with ⟨-, rfl⟩ | ⟨-, hold⟩ | ⟨-, w, -, rfl⟩
    · exact .inr hnone
    · exact .inl hold
    · exact .inr (List.forall_mem_singleton.2 rfl)

/-- So does a move that is no step at the gate. -/
theorem parksAlike_move (hs : s.Lawful) (hfront : s.Fronted)
    (hm : ∀ g, s.ran m ≠ some (.gate g)) : s.ParksAlike (s.move m) := by
  cases m with
  | operate o => exact .of_threads rfl
  | call c n =>
    refine parksAlike_spawn fun a ha => ?_
    have hkind := Call.kind_of_mem ha
    cases a with
    | gate g => exact absurd hkind (by simp [Action.kind])
    | _ => rfl
  | step i ch =>
    cases hran : s.ran (.step i ch) with
    | none =>
      rw [move_step_of_ran hran]
      exact .of_threads rfl
    | some a =>
      obtain ⟨i', ch', th, rest, turn, h⟩ := exists_runs hran
      exact h.parksAlike hs hfront fun g hg => hm g (hran.trans (congrArg some hg))

/-- A thread without duties may be added to a lawful system. -/
theorem Lawful.spawn (hs : s.Lawful) (hth : JitBroker.duties th.agenda = []) :
    (s.spawn th).Lawful := by
  have hduties : (s.spawn th).duties = s.duties := by
    rw [JitBroker.duties] at hth
    simp [duties, hth]
  refine ⟨hs.sound, hduties ▸ hs.known, hduties ▸ hs.custody, fun {j t} ht => ?_⟩
  rw [System.spawn, Table.getElem?_add] at ht
  split at ht
  · obtain rfl := Option.some.inj ht
    rw [hth]
    trivial
  · exact hs.written ht

end System

/-! ### Gatehouses -/

/-- A system, and the guards of its pause gate that are alive, each with a name of its own. -/
structure Gatehouse where
  /-- The system. -/
  system : System
  /-- The guards that are alive. -/
  guards : Finset Nat := ∅

namespace Gatehouse

/-- What may happen. -/
inductive Move where
  /-- A new thread comes to poll the gate. -/
  | poll
  /-- The system makes a move. If it acquires or drops a guard, it is the guard of that name. -/
  | system (m : System.Move) (guard : Nat)

/-- The gatehouse after a move. A guard that is alive is not acquired again, and one that is not
alive cannot be dropped. -/
def move (h : Gatehouse) : Move → Gatehouse
  | .poll => { h with system := h.system.spawn { agenda := [.gate .poll] } }
  | .system m guard =>
    match h.system.operation? m with
    | some .pause =>
      if guard ∈ h.guards then h else ⟨h.system.move m, insert guard h.guards⟩
    | some .unpause =>
      if guard ∈ h.guards then ⟨h.system.move m, h.guards.erase guard⟩ else h
    | _ => { h with system := h.system.move m }

/-- What is so in every state. -/
structure Sound (h : Gatehouse) : Prop where
  /-- The system is lawful. -/
  lawful : h.system.Lawful
  /-- The gate counts the guards that are alive. -/
  guards : h.system.broker.gate.guards = h.guards.card
  /-- Its flag is up while there are any. -/
  consistent : h.system.broker.gate.Consistent
  /-- It counts the threads that are parked. -/
  parked : h.system.broker.gate.parked = h.system.parkedThreads
  /-- A thread that is parked has a bell to hear, or a guard to wait for. -/
  woken : ∀ {i : ThreadId} {th : Thread} {bell : Nat} {rest : List Action},
    h.system.threads[i]? = some th → th.agenda = .gate (.parked bell) :: rest →
      bell ≤ h.system.broker.gate.bell ∧
        (bell = h.system.broker.gate.bell → 0 < h.system.broker.gate.guards)
  /-- Nobody is parked but at the first of its actions. -/
  fronted : h.system.Fronted

namespace Sound

variable {h : Gatehouse} {s' : System} {guards' : Finset Nat}

theorem guards_ne_zero (hh : h.Sound) (hguards : h.guards.Nonempty) :
    h.system.broker.gate.guards ≠ 0 := by
  rw [hh.guards]
  exact hguards.card_ne_zero

/-- A gatehouse stays sound where the same threads are parked, and the bell rings for them if the
last guard is dropped. -/
theorem of_alike (hh : h.Sound) (hs' : s'.Lawful) (halike : h.system.ParksAlike s')
    (hguards : s'.broker.gate.guards = guards'.card) (hconsistent : s'.broker.gate.Consistent)
    (hparked : s'.broker.gate.parked = h.system.broker.gate.parked)
    (hfollows : h.system.broker.gate.Follows s'.broker.gate) : Sound ⟨s', guards'⟩ where
  lawful := hs'
  guards := hguards
  consistent := hconsistent
  parked := hparked.trans (hh.parked.trans halike.count.symm)
  woken {i th bell rest} hth hagenda := by
    rcases halike.thread hth with hold | hnone
    · exact System.Alert.parked_of_follows hfollows (hh.woken hold hagenda)
    · have hpark : (Action.gate (.parked bell)).parks = false :=
        hnone _ (hagenda ▸ List.mem_cons_self)
      cases hpark
  fronted hth a ha := by
    rcases halike.thread hth with hold | hnone
    · exact hh.fronted hold a ha
    · exact hnone a (List.mem_of_mem_drop ha)

/-- It stays sound by a step at the gate. -/
theorem of_leads (hh : h.Sound) {m : System.Move} (hm : h.system.ran m = some (.gate g)) :
    Sound ⟨h.system.move m, h.guards⟩ := by
  obtain ⟨-, i, th, rest, turn, hth, hagenda, hleads, hmove⟩ := System.exists_leads hm
  have hpassage := hleads.passage
  have hrest : ∀ a ∈ rest, a.parks = false := by
    have hdrop := hh.fronted hth
    rwa [hagenda] at hdrop
  have hbefore : th.isParked = g.isParked := by
    rw [Thread.isParked, hagenda]
    rfl
  have hcount := System.parkedThreads_turned turn hth
  rw [Thread.isParked_after hagenda hrest, hbefore] at hcount
  have hlawful := hh.lawful.move m
  have hconsistent := System.consistent_move hh.lawful hh.consistent m
  rw [hmove] at hlawful hconsistent ⊢
  constructor
  case lawful => exact hlawful
  case consistent => exact hconsistent
  case guards => exact hpassage.guards.trans hh.guards
  case parked =>
    have hpos (hparked : g.isParked = true) : 0 < h.system.broker.gate.parked := by
      have hle := Table.le_total hth fun th => th.isParked.toNat
      rw [← System.parkedThreads_eq_total, ← hh.parked, hbefore, hparked] at hle
      exact hle
    have hparked := hpassage.parked hpos
    rw [hh.parked] at hparked
    exact Nat.add_right_cancel (hparked.trans hcount.symm)
  case woken =>
    intro j t bell rest' ht hat
    rw [System.broker_turned, hpassage.bell, hpassage.guards]
    rcases System.threadsAfter_cases hth ht with ⟨-, rfl⟩ | ⟨-, hold⟩ | ⟨-, w, -, rfl⟩
    · have hmem : .gate (.parked bell) ∈ turn.next := by
        have hmem : .gate (.parked bell) ∈ turn.next ++ rest := by
          rw [← System.Thread.agenda_after hagenda, hat]
          exact List.mem_cons_self
        refine (List.mem_append.1 hmem).resolve_right fun hmem => ?_
        exact Bool.false_ne_true (hrest _ hmem).symm
      obtain ⟨rfl, hpos⟩ := hpassage.woken hmem
      exact ⟨Nat.le_refl _, fun _ => hpos⟩
    · exact hh.woken hold hat
    · cases hat
  case fronted =>
    intro j t ht a ha
    rcases System.threadsAfter_cases hth ht with ⟨-, rfl⟩ | ⟨-, hold⟩ | ⟨-, w, -, rfl⟩
    · rw [System.Thread.agenda_after hagenda] at ha
      exact hrest a (Action.mem_of_drop hpassage.next ha)
    · exact hh.fronted hold a ha
    · cases ha

/-- It stays sound by a move that is no step at the gate, if that keeps the gate in agreement with
the guards and with those who are parked. -/
theorem of_move (hh : h.Sound) {m : System.Move} (hm : ∀ g, h.system.ran m ≠ some (.gate g))
    (hguards : (h.system.move m).broker.gate.guards = guards'.card)
    (hparked : (h.system.move m).broker.gate.parked = h.system.broker.gate.parked)
    (hfollows : h.system.broker.gate.Follows (h.system.move m).broker.gate) :
    Sound ⟨h.system.move m, guards'⟩ :=
  hh.of_alike (hh.lawful.move m) (System.parksAlike_move hh.lawful hh.fronted hm) hguards
    (System.consistent_move hh.lawful hh.consistent m) hparked hfollows

theorem acquire (hh : h.Sound) {m : System.Move} {guard : Nat}
    (hop : h.system.operation? m = some .pause) (hguard : guard ∉ h.guards) :
    Sound ⟨h.system.move m, insert guard h.guards⟩ := by
  have hm := System.not_gate_of_operation hop
  have hgate := System.gate_move hh.lawful hm
  rw [hop] at hgate
  refine hh.of_move hm ?_ ?_ ?_ <;> rw [hgate]
  · rw [Finset.card_insert_of_notMem hguard, ← hh.guards]
    rfl
  · rfl
  · exact .inr ⟨rfl, fun _ => Nat.succ_pos _⟩

theorem drop (hh : h.Sound) {m : System.Move} {guard : Nat}
    (hop : h.system.operation? m = some .unpause) (hguard : guard ∈ h.guards) :
    Sound ⟨h.system.move m, h.guards.erase guard⟩ := by
  have hm := System.not_gate_of_operation hop
  have hgate := System.gate_move hh.lawful hm
  have hfollows := (h.system.broker.stirs_operate .unpause).gate
  rw [(h.system.broker.operate_operated .unpause).gate] at hfollows
  rw [hop] at hgate
  simp only [if_neg (hh.guards_ne_zero ⟨guard, hguard⟩)] at hgate hfollows
  refine hh.of_move hm ?_ ?_ ?_ <;> rw [hgate]
  · rw [PauseGate.guards_release, hh.guards, Finset.card_erase_of_mem hguard]
  · exact PauseGate.parked_release _
  · exact hfollows

theorem keep (hh : h.Sound) {m : System.Move} (hpause : h.system.operation? m ≠ some .pause)
    (hunpause : h.system.operation? m ≠ some .unpause) :
    Sound ⟨h.system.move m, h.guards⟩ := by
  by_cases hm : ∃ g, h.system.ran m = some (.gate g)
  · obtain ⟨g, hm⟩ := hm
    exact hh.of_leads hm
  have hsame : (h.system.move m).broker.gate = h.system.broker.gate := by
    rw [System.gate_move hh.lawful (not_exists.1 hm)]
    split
    · exact absurd ‹_› hpause
    · exact absurd ‹_› hunpause
    · rfl
  refine hh.of_move (not_exists.1 hm) ?_ ?_ ?_ <;> rw [hsame]
  · exact hh.guards
  · exact .refl _

/-- Every move leads to a sound gatehouse. -/
theorem move (hh : h.Sound) (m : Move) : (h.move m).Sound := by
  cases m with
  | poll =>
    have halike : h.system.ParksAlike (h.system.spawn { agenda := [.gate .poll] }) :=
      System.parksAlike_spawn (List.forall_mem_singleton.2 rfl)
    exact hh.of_alike (hh.lawful.spawn rfl) halike hh.guards hh.consistent rfl (.refl _)
  | system m guard =>
    rw [Gatehouse.move]
    split
    · split
      · exact hh
      · exact hh.acquire ‹_› ‹_›
    · split
      · exact hh.drop ‹_› ‹_›
      · exact hh
    · exact hh.keep ‹_› ‹_›

/-- So does every run. -/
theorem foldl (hh : h.Sound) (ms : List Move) : (ms.foldl Gatehouse.move h).Sound := by
  induction ms generalizing h with
  | nil => exact hh
  | cons m ms ih => exact ih (hh.move m)

end Sound

/-- A broker that has just been assembled has a gate with no guards, at which nobody is parked. -/
theorem sound_launch {config : Config} {parts : Broker.Parts}
    (hb : Broker.assemble config parts = .ok b) : Sound ⟨System.launch b, ∅⟩ := by
  have hlawful := System.lawful_launch (Broker.fresh_assemble hb)
  obtain ⟨units, -, rfl⟩ := Broker.exists_of_assemble hb
  refine ⟨hlawful, rfl, rfl, rfl, fun hth hagenda => ?_, fun hth a ha => ?_⟩
  · rw [System.agenda_launch hth] at hagenda
    cases hagenda
  · rw [System.agenda_launch hth] at ha
    cases ha

/-! ### What the gate does -/

/-- What the gate does for its guards and for those who poll it. -/
structure Gated (h : Gatehouse) : Prop where
  /-- A pause is asked for exactly while some guard is alive. -/
  requested : h.system.broker.gate.requested = true ↔ h.guards.Nonempty
  /-- The gate counts the threads that are parked and have not left yet. -/
  parked : h.system.broker.gate.parked = h.system.parkedThreads
  /-- While some guard is alive, nobody who makes a step at the gate gets past it, and nobody leaves
  who is parked. -/
  holds : ∀ {i : ThreadId} {th : Thread} {g : GateStep} {rest : List Action} {ch : Choices}
    {s' : System}, h.guards.Nonempty → h.system.threads[i]? = some th →
      th.agenda = .gate g :: rest → h.system.step i ch = some s' →
        ∃ g', s'.threads[i]? = some { th with agenda := .gate g' :: rest } ∧
          (g.isParked = true → g'.isParked = true)
  /-- While no guard is alive, whoever polls the gate gets past it without being parked. -/
  passes : ∀ {i : ThreadId} {th : Thread} {g : GateStep} {rest : List Action} (ch : Choices),
    h.guards = ∅ → h.system.threads[i]? = some th → th.agenda = .gate g :: rest →
      g.isParked = false → ∃ s', h.system.step i ch = some s' ∧ s'.broker = h.system.broker ∧
        s'.threads[i]? = some { th with agenda := rest }
  /-- While no guard is alive, whoever is parked can leave. -/
  leaves : ∀ {i : ThreadId} {th : Thread} {g : GateStep} {rest : List Action} (ch : Choices),
    h.guards = ∅ → h.system.threads[i]? = some th → th.agenda = .gate g :: rest →
      g.isParked = true → ∃ s', h.system.step i ch = some s' ∧
        s'.broker = { h.system.broker with gate := h.system.broker.gate.leave } ∧
        s'.threads[i]? = some { th with agenda := rest }
  /-- So if no guard is alive, and nobody at the gate can make a step, nobody is parked. -/
  rests : h.guards = ∅ →
    (∀ (i : ThreadId) (th : Thread) (g : GateStep) (rest : List Action) (ch : Choices),
      h.system.threads[i]? = some th → th.agenda = .gate g :: rest → h.system.step i ch = none) →
    ∀ (i : ThreadId) (th : Thread), h.system.threads[i]? = some th → th.isParked = false

namespace Sound

variable {h : Gatehouse} {i : ThreadId}

theorem guards_eq_zero (hh : h.Sound) (hguards : h.guards = ∅) :
    h.system.broker.gate.guards = 0 := by
  rw [hh.guards, hguards, Finset.card_empty]

theorem requested_iff (hh : h.Sound) :
    h.system.broker.gate.requested = true ↔ h.guards.Nonempty := by
  rw [show h.system.broker.gate.requested = _ from hh.consistent, decide_eq_true_iff, hh.guards,
    Finset.card_pos]

/-- A step at the gate that is known makes a step of the system. -/
theorem step_of_leads (hth : h.system.threads[i]? = some th) (hagenda : th.agenda = .gate g :: rest)
    (hleads : g.Leads h.system.broker turn) (hreply : turn.reply = none) (ch : Choices) :
    ∃ s', h.system.step i ch = some s' ∧ s'.broker = turn.broker ∧
      s'.threads[i]? = some { th with agenda := turn.next ++ rest } := by
  refine ⟨_, System.step_eq_some_iff.2 ⟨th, _, rest, turn, hth, hagenda,
    GateStep.run_eq_some_iff.2 hleads, rfl⟩, rfl, ?_⟩
  rw [← Thread.after_of_reply hagenda hreply]
  exact System.threadsAfter_self hth

theorem holds (hh : h.Sound) {s' : System} (hguards : h.guards.Nonempty)
    (hth : h.system.threads[i]? = some th) (hagenda : th.agenda = .gate g :: rest)
    (hstep : h.system.step i ch = some s') :
    ∃ g', s'.threads[i]? = some { th with agenda := .gate g' :: rest } ∧
      (g.isParked = true → g'.isParked = true) := by
  obtain ⟨th', a, rest', turn, hth', hagenda', hrun, rfl⟩ := System.step_eq_some_iff.1 hstep
  obtain rfl := Option.some.inj (hth.symm.trans hth')
  obtain ⟨rfl, rfl⟩ := List.cons.inj (hagenda.symm.trans hagenda')
  have hne := hh.guards_ne_zero hguards
  have hleads := GateStep.run_eq_some_iff.1 hrun
  have hself : (h.system.threadsAfter i turn)[i]? = some (th.after turn) :=
    System.threadsAfter_self hth
  cases hleads with
  | passes hopen => exact absurd (hh.requested_iff.2 hguards) (Bool.eq_false_iff.1 hopen)
  | slips hzero | leaves _ hzero => exact absurd hzero hne
  | asks _ =>
    rw [Thread.after_of_reply hagenda rfl] at hself
    exact ⟨.park, hself, nofun⟩
  | parks _ | stays _ _ =>
    rw [Thread.after_of_reply hagenda rfl] at hself
    exact ⟨.parked _, hself, fun _ => rfl⟩

theorem passes (hh : h.Sound) (hguards : h.guards = ∅) (hth : h.system.threads[i]? = some th)
    (hagenda : th.agenda = .gate g :: rest) (hparked : g.isParked = false) (ch : Choices) :
    ∃ s', h.system.step i ch = some s' ∧ s'.broker = h.system.broker ∧
      s'.threads[i]? = some { th with agenda := rest } := by
  cases g with
  | poll =>
    have hopen : h.system.broker.gate.requested = false := by
      rw [← Bool.not_eq_true, hh.requested_iff, hguards]
      exact Finset.not_nonempty_empty
    exact step_of_leads hth hagenda (.passes hopen) rfl ch
  | park => exact step_of_leads hth hagenda (.slips (hh.guards_eq_zero hguards)) rfl ch
  | parked bell => cases hparked

theorem leaves (hh : h.Sound) (hguards : h.guards = ∅) (hth : h.system.threads[i]? = some th)
    (hagenda : th.agenda = .gate g :: rest) (hparked : g.isParked = true) (ch : Choices) :
    ∃ s', h.system.step i ch = some s' ∧
      s'.broker = { h.system.broker with gate := h.system.broker.gate.leave } ∧
      s'.threads[i]? = some { th with agenda := rest } := by
  cases g with
  | parked bell =>
    have hzero := hh.guards_eq_zero hguards
    -- The bell has rung, since there would be a guard otherwise.
    have hbell : h.system.broker.gate.bell ≠ bell := fun heq =>
      (hzero ▸ (hh.woken hth hagenda).2 heq.symm).false
    exact step_of_leads hth hagenda (.leaves hbell hzero) rfl ch
  | poll | park => cases hparked

/-- What the gate does follows. -/
theorem gated (hh : h.Sound) : h.Gated where
  requested := hh.requested_iff
  parked := hh.parked
  holds := hh.holds
  passes ch hguards hth hagenda hparked := hh.passes hguards hth hagenda hparked ch
  leaves ch hguards hth hagenda hparked := hh.leaves hguards hth hagenda hparked ch
  rests hguards hstill i th hth := by
    by_contra hparked
    obtain ⟨g, rest, hagenda, hg⟩ := Thread.exists_of_isParked (Bool.not_eq_false _ ▸ hparked)
    obtain ⟨s', hstep, -⟩ := hh.leaves hguards hth hagenda hg {}
    cases (hstill i th g rest {} hth hagenda).symm.trans hstep

end Sound

/-- In every run of a broker, in whatever order guards are acquired and dropped, and however many
threads poll the gate: the flag tells whether a guard is alive, the gate counts those who are
parked, nobody gets past a guard, and without guards nobody parks, and nobody stays parked. -/
theorem gated_of_run {config : Config} {parts : Broker.Parts}
    (hb : Broker.assemble config parts = .ok b) (ms : List Move) :
    (ms.foldl move ⟨System.launch b, ∅⟩).Gated :=
  ((sound_launch hb).foldl ms).gated

/-! ### A relief -/

/-- The steps of a thread. -/
def steps (i : ThreadId) (n : Nat) : List Move := List.replicate n (.system (.step i {}) 0)

/-- Two threads park at the gate of the small broker. Then the guard is dropped, and before they
have looked again there is another one. -/
def relieved : List Move :=
  [.poll, .poll, .system (.operate .pause) 0] ++ steps 1 2 ++ steps 2 2
    ++ [.system (.operate .unpause) 0, .system (.operate .pause) 1] ++ steps 1 1 ++ steps 2 1

/-- Both stay parked, and leave when the other guard is dropped too. -/
theorem gated_of_relieved :
    (relieved.foldl move ⟨System.launch .solo, ∅⟩).Gated ∧
      (relieved.foldl move ⟨System.launch .solo, ∅⟩).guards = {1} ∧
      (relieved.foldl move ⟨System.launch .solo, ∅⟩).system.parkedThreads = 2 ∧
      ((.system (.operate .unpause) 1 :: steps 1 1 ++ steps 2 1).foldl move
        (relieved.foldl move ⟨System.launch .solo, ∅⟩)).system.parkedThreads = 0 :=
  ⟨gated_of_run Broker.assemble_solo relieved, by decide +kernel, by decide +kernel,
    by decide +kernel⟩

end Gatehouse

end JitBroker
