import JitBroker.Proofs.Crew.Strength
import JitBroker.Proofs.Task.Handshake

/-!
# How long requesters wait

A requester that waits for a task looks at it when it begins to wait, and at the end of each slice of
the wait. If it finds the task complete it takes the result, and if it finds compilation disabled it
is turned away. Otherwise it takes a reading of the progress, if the back-end is external. It gives
up as soon as it is *stalled*: the last readings, as many as the configuration says and at least one,
are all equal to the one before them (`Stalled`). There is no other way in which a wait may end
(`System.Wait`).

What the requester remembers are the last reading and how many readings in a row were equal to the
one before, which is enough to tell whether it is stalled (`Watch.Follows.stalled_iff`).
-/

namespace JitBroker

/-! ### Readings -/

/-- Readings of the progress, the first one first. -/
abbrev Readings := List (Option UInt64)

/-- Who gives up after so many readings without progress gives up now: the last ones, at least one,
are all equal to the one before them. -/
def Stalled (limit : Option Nat) (rs : Readings) : Prop :=
  ∃ n ∈ limit, ∃ before r, rs = before ++ r :: List.replicate (max 1 n) r

/-- At no time up to now it gave up. -/
def Patient (limit : Option Nat) (rs : Readings) : Prop := ∀ rs', rs' <+: rs → ¬ Stalled limit rs'

variable {limit : Option Nat} {rs : Readings} {r : Option UInt64} {n : Nat}

theorem patient_nil (limit : Option Nat) : Patient limit [] := by
  rintro rs' h ⟨n, -, before, r, rfl⟩
  simpa using List.prefix_nil.1 h

/-- Who was patient and does not give up now is patient. -/
theorem Patient.concat (h : Patient limit rs) (hr : ¬ Stalled limit (rs ++ [r])) :
    Patient limit (rs ++ [r]) := by
  intro rs' hprefix
  rcases List.prefix_concat_iff.1 hprefix with rfl | hprefix
  · exact hr
  · exact h rs' hprefix

/-- One reading alone is no reason to give up. -/
theorem not_stalled_singleton (limit : Option Nat) (r : Option UInt64) : ¬ Stalled limit [r] := by
  rintro ⟨n, -, before, r', h⟩
  have hlength := congrArg List.length h
  simp only [List.length_append, List.length_cons, List.length_replicate, List.length_nil] at hlength
  have := Nat.le_max_left 1 n
  omega

/-- What is remembered of the readings: the last one, and how many before it are equal to it in a
row. -/
def Watch.Follows (w : Watch) (rs : Readings) : Prop :=
  ∃ before, rs = before ++ List.replicate (w.idle + 1) w.last ∧ ∀ r ∈ before.getLast?, r ≠ w.last

namespace Watch.Follows

variable {w : Watch}

/-- The first reading. -/
theorem first (r : Option UInt64) (due : Nat) : Watch.Follows ⟨r, 0, due⟩ [r] :=
  ⟨[], rfl, nofun⟩

/-- A reading that differs from the last one. -/
theorem change (h : w.Follows rs) (hr : r ≠ w.last) (due : Nat) :
    Watch.Follows ⟨r, 0, due⟩ (rs ++ [r]) := by
  obtain ⟨before, rfl, -⟩ := h
  refine ⟨_, rfl, fun r' hr' => ?_⟩
  rw [List.replicate_succ', ← List.append_assoc, List.getLast?_concat, Option.mem_some_iff] at hr'
  exact hr' ▸ Ne.symm hr

/-- A reading that is equal to the last one. -/
theorem same (h : w.Follows rs) (due : Nat) :
    Watch.Follows ⟨w.last, w.idle + 1, due⟩ (rs ++ [w.last]) := by
  obtain ⟨before, rfl, hbefore⟩ := h
  refine ⟨before, ?_, hbefore⟩
  rw [List.append_assoc, ← List.replicate_succ']

/-- What is remembered tells who gives up. -/
theorem stalled_iff (h : w.Follows rs) : Stalled (some n) rs ↔ max 1 n ≤ w.idle := by
  obtain ⟨before, rfl, hbefore⟩ := h
  constructor
  · rintro ⟨_, ⟨⟩, before', r, heq⟩
    by_contra hmore
    -- The row of equal readings would go on further than it does.
    obtain ⟨k, hk⟩ : ∃ k, max 1 n = k + 1 + w.idle := ⟨max 1 n - w.idle - 1, by omega⟩
    have hrow : r :: List.replicate (max 1 n) r =
        List.replicate (k + 1) r ++ List.replicate (w.idle + 1) r := by
      rw [← List.replicate_succ, List.replicate_append_replicate]
      exact congrArg (List.replicate · r) (by omega)
    rw [hrow, ← List.append_assoc] at heq
    obtain ⟨rfl, hlast⟩ := List.append_inj' heq (by simp)
    rw [List.replicate_succ, List.replicate_succ] at hlast
    obtain ⟨hlast, -⟩ := List.cons.inj hlast
    refine hbefore r ?_ hlast.symm
    rw [List.replicate_succ', ← List.append_assoc, List.getLast?_concat]
    rfl
  · intro hle
    obtain ⟨k, hk⟩ : ∃ k, w.idle + 1 = k + (max 1 n + 1) := ⟨w.idle - max 1 n, by omega⟩
    refine ⟨n, rfl, before ++ List.replicate k w.last, w.last, ?_⟩
    rw [hk, ← List.replicate_append_replicate, List.append_assoc, List.replicate_succ]

end Watch.Follows

/-- What a sleeping requester that gives up or not remembers of the readings. -/
def Watches (limit : Option Nat) (rs : Readings) : Option Watch → Prop
  | none => limit = none
  | some w => limit.isSome = true ∧ w.Follows rs

/-- After how many readings without progress a requester of a unit gives up, if it ever does. -/
def TierUnit.patience (x : TierUnit) (c : Config) : Option Nat :=
  if x.kind = .external then some c.slicesMax.toNat else none

/-! ### Looks -/

/-- What a requester finds when it looks at its task. -/
inductive Sight where
  /-- The task is complete. -/
  | complete
  /-- Compilation is disabled. -/
  | disabled
  /-- Neither, and this is what the back-end says of its progress, if it is external. -/
  | reading (r : Option UInt64)
  deriving DecidableEq

/-- What is found of a task. -/
def Broker.sight (b : Broker) (ch : Choices) (x : Task) : Sight :=
  if x.complete then .complete else if b.disabled then .disabled else .reading ch.progress

theorem Broker.complete_of_sight {b : Broker} {ch : Choices} {x : Task}
    (h : b.sight ch x = .complete) : x.complete = true := by
  unfold sight at h
  split at h
  · assumption
  · split at h <;> cases h

/-- Whether an action is to look at a task. -/
def Action.watches (t : TaskId) : Action → Bool
  | .request (.attend _ t') | .request (.asleep _ t' _ _) => t' == t
  | _ => false

/-- What a look leads to. -/
inductive Turn.Looks (limit : Option Nat) (rs : Readings) (q : Inquiry) (t : TaskId) (x : Task)
    (turn : Turn) : Sight → Prop where
  /-- The requester is to take the result. -/
  | complete (hnext : turn.next = [.request (.collect q t)]) : Looks limit rs q t x turn .complete
  /-- It is turned away. -/
  | disabled (hnext : turn.next = []) (hreply : turn.reply =
      some (.outcome (.rejected (.unavailable .disabledWhileWaiting)))) :
    Looks limit rs q t x turn .disabled
  /-- It gives up. -/
  | abandoned {r : Option UInt64} (hstalled : Stalled limit (rs ++ [r])) (hnext : turn.next = [])
    (hreply : turn.reply = some (.outcome (.abandoned x.compileId))) :
    Looks limit rs q t x turn (.reading r)
  /-- It goes to sleep. -/
  | sleeps {r : Option UInt64} {bell : Nat} {watch : Option Watch}
    (hopen : ¬ Stalled limit (rs ++ [r]))
    (hnext : turn.next = [.request (.asleep q t bell watch)])
    (hwatch : Watches limit (rs ++ [r]) watch) : Looks limit rs q t x turn (.reading r)

namespace RequestStep

variable {me : Caller} {ch : Choices} {b b' : Broker} {turn : Turn} {q : Inquiry} {t : TaskId}
  {x : Task} {watch : Option Watch} {bell : Nat}

theorem exists_leave (b' : Broker) (q : Inquiry) (t : TaskId) (x : Task) (gaveUp : Bool) :
    ∃ turn, leave b' q t x gaveUp = some turn := by
  unfold leave
  split <;> exact ⟨_, rfl⟩

theorem exists_wakeUp (b : Broker) (ch : Choices) (q : Inquiry) (t : TaskId) (x : Task)
    (watch : Option Watch) : ∃ turn, wakeUp b ch q t x watch = some turn := by
  unfold wakeUp
  repeat' split
  all_goals first
    | exact exists_leave _ _ _ _ _
    | exact ⟨_, rfl⟩

/-- Who finds the task complete or compilation disabled leaves. -/
theorem leave_looks (hover : (x.complete || b.disabled) = true)
    (h : leave b' q t x false = some turn) : turn.Looks limit rs q t x (b.sight ch x) := by
  unfold leave at h
  split at h
  · rename_i hcomplete
    obtain rfl := Option.some.inj h
    rw [show b.sight ch x = .complete by simp [Broker.sight, hcomplete]]
    exact .complete rfl
  · rename_i hcomplete
    have hdisabled : b.disabled = true := by simpa [hcomplete] using hover
    obtain rfl := Option.some.inj h
    rw [show b.sight ch x = .disabled by simp [Broker.sight, hcomplete, hdisabled]]
    exact .disabled rfl rfl

/-- A requester that wakes up looks. -/
theorem wakeUp_looks (hlimit : ∀ n ∈ limit, n = b.config.slicesMax.toNat)
    (hwatch : Watches limit rs watch) (h : wakeUp b ch q t x watch = some turn) :
    turn.Looks limit rs q t x (b.sight ch x) := by
  unfold wakeUp at h
  split at h
  · exact leave_looks ‹_› h
  · rename_i hopen
    simp only [Bool.or_eq_true, not_or, Bool.not_eq_true] at hopen
    have hsight : b.sight ch x = .reading ch.progress := by simp [Broker.sight, hopen]
    rw [hsight]
    cases watch with
    | none =>
      obtain rfl := Option.some.inj h
      obtain rfl : limit = none := hwatch
      exact .sleeps (by rintro ⟨n, ⟨⟩, -⟩) rfl rfl
    | some w =>
      obtain ⟨hsome, hfollows⟩ := hwatch
      obtain ⟨n, rfl⟩ := Option.isSome_iff_exists.1 hsome
      obtain rfl := hlimit n rfl
      simp only at h
      split at h
      · rename_i hchange
        obtain rfl := Option.some.inj h
        have hnew := hfollows.change hchange (readingDue b)
        exact .sleeps (mt hnew.stalled_iff.1 (by simp)) rfl ⟨rfl, hnew⟩
      · rename_i hsame
        rw [not_not.1 hsame]
        have hnew := hfollows.same (readingDue b)
        split at h
        · rename_i hlast
          unfold leave at h
          rw [hopen.1, if_neg Bool.false_ne_true] at h
          obtain rfl := Option.some.inj h
          exact .abandoned (hnew.stalled_iff.2 (by simpa using hlast)) rfl rfl
        · rename_i hmore
          obtain rfl := Option.some.inj h
          exact .sleeps (mt hnew.stalled_iff.1 (by simpa using hmore)) rfl ⟨rfl, hnew⟩

/-- A requester that begins to wait looks. -/
theorem attend_looks {unit : TierUnit} (hu : b.units[q.unit]? = some unit)
    (hx : b.tasks[t]? = some x) (h : (attend q t).run me ch b = some turn) :
    turn.Looks (unit.patience b.config) [] q t x (b.sight ch x) := by
  rw [run, hu, hx] at h
  simp only at h
  split at h
  · exact leave_looks ‹_› h
  · rename_i hopen
    change ¬ (x.complete || b.disabled) = true at hopen
    simp only [Bool.or_eq_true, not_or, Bool.not_eq_true] at hopen
    have hsight : b.sight ch x = .reading ch.progress := by simp [Broker.sight, hopen]
    rw [hsight]
    obtain rfl := Option.some.inj h
    refine .sleeps (not_stalled_singleton _ _) rfl ?_
    unfold TierUnit.patience
    split
    · exact ⟨rfl, .first _ _⟩
    · rfl

/-- Only a requester of an external back-end gives up. -/
theorem watch_of_abandoned {s : RequestStep} {id : UInt32} (h : s.run me ch b = some turn)
    (hreply : turn.reply = some (.outcome (.abandoned id))) :
    ∃ q t bell w, s = .asleep q t bell (some w) := by
  have stays {b' : Broker} {q : Inquiry} {t : TaskId} {x : Task}
      (h : leave b' q t x false = some turn) : False := by
    unfold leave at h
    split at h <;> obtain rfl := Option.some.inj h <;> cases hreply
  cases s with
  | asleep q t bell watch =>
    cases watch with
    | some w => exact ⟨q, t, bell, w, rfl⟩
    | none =>
      rw [run] at h
      split at h
      · cases h
        cases hreply
      · split at h
        · unfold wakeUp at h
          split at h
          · exact (stays h).elim
          · cases h
            cases hreply
        · cases h
  | conclude q id' result =>
    rw [run] at h
    split at h <;> obtain rfl := Option.some.inj h
    · cases hreply
    · unfold answer at hreply
      repeat' split at hreply
      all_goals cases hreply
  | _ =>
    rw [run] at h
    (try simp only at h)
    repeat' split at h
    all_goals first
      | exact (stays h).elim
      | cases h; cases hreply
      | cases h

/-! ### Seats -/

/-- What is found out about whoever waits, or has waited: its method is known, and if it reads the
progress, its back-end is external. -/
def Seated (b : Broker) : RequestStep → Prop
  | .attend q _ | .asleep q _ _ none | .collect q _ | .conclude q _ _ =>
    q.request.method < b.methods.size
  | .asleep q _ _ (some _) => q.request.method < b.methods.size ∧
    ∃ unit, b.units[q.unit]? = some unit ∧ unit.kind = .external
  | _ => True

theorem leave_seated {b₀ : Broker} {gaveUp : Bool} (hq : q.request.method < b₀.methods.size)
    (h : leave b' q t x gaveUp = some turn) :
    ∀ s', .request s' ∈ turn.next → s'.Seated b₀ := by
  unfold leave at h
  split at h <;> obtain rfl := Option.some.inj h
  · simpa [Seated] using hq
  · simp

/-- A request goes on with a step of which this is found out, -/
theorem next_seated {s : RequestStep} (h : next b' s = some turn) (hs : s.Seated b) :
    ∀ s', .request s' ∈ turn.next → s'.Seated b := by
  obtain rfl := Option.some.inj h
  intro s' hs'
  obtain rfl := Action.request.inj (List.mem_singleton.1 hs')
  exact hs

/-- or is over. -/
theorem answer_seated {r : Reply} (h : Turn.answer b' r = some turn) :
    ∀ s', .request s' ∈ turn.next → s'.Seated b := by
  obtain rfl := Option.some.inj h
  exact fun s' hs' => absurd hs' List.not_mem_nil

theorem fault_seated (h : Turn.fault b' = some turn) :
    ∀ s', .request s' ∈ turn.next → s'.Seated b := by
  obtain rfl := Option.some.inj h
  intro s' hs'
  cases List.mem_singleton.1 hs'

/-- A step of a request only brings steps of which all this is found out, if it is of itself. -/
theorem run_seated {s : RequestStep} (hs : s.Seated b)
    (hbring : ∀ q t, s = .append q t → q.request.method < b.methods.size)
    (h : s.run me ch b = some turn) : ∀ s', .request s' ∈ turn.next → s'.Seated b := by
  cases s with
  | append q t =>
    have hq := hbring q t rfl
    rw [run] at h
    repeat' split at h
    all_goals first
      | exact next_seated h hq
      | exact answer_seated h
      | exact fault_seated h
  | attend q t =>
    have hq : q.request.method < b.methods.size := hs
    rw [run] at h
    split at h
    · rename_i unit task hunit htask
      simp only at h
      split at h
      · exact leave_seated hq h
      · obtain rfl := Option.some.inj h
        rintro s' hs'
        obtain rfl : s' = _ := by simpa using hs'
        split
        · exact ⟨hq, unit, hunit, ‹_›⟩
        · exact hq
    · obtain rfl := Option.some.inj h
      simp
  | asleep q t bell watch =>
    have hq : q.request.method < b.methods.size := by
      cases watch with
      | none => exact hs
      | some w => exact hs.1
    rw [run] at h
    split at h
    · obtain rfl := Option.some.inj h
      simp
    · split at h
      · unfold wakeUp at h
        split at h
        · exact leave_seated hq h
        · cases watch with
          | none =>
            obtain rfl := Option.some.inj h
            simpa [Seated] using hs
          | some w =>
            simp only at h
            split at h
            · obtain rfl := Option.some.inj h
              simpa [Seated] using hs
            · split at h
              · exact leave_seated hq h
              · obtain rfl := Option.some.inj h
                simpa [Seated] using hs
      · cases h
  | collect q t =>
    have hq : q.request.method < b.methods.size := hs
    rw [run] at h
    split at h <;> obtain rfl := Option.some.inj h <;> simp [Seated, hq]
  | _ =>
    rw [run] at h
    (try simp only at h)
    repeat' split at h
    all_goals first
      | exact next_seated h trivial
      | exact answer_seated h
      | exact fault_seated h
      | (obtain rfl := Option.some.inj h
         simp [Seated])
      | cases h

end RequestStep

namespace System

variable {s : System} {m : Move} {j : ThreadId} {q : Inquiry} {t : TaskId} {rest : List Action}
  {x : Task} {u : UnitId} {unit : TierUnit}

/-- A unit stays what it is. -/
theorem kind_move (hs : s.Lawful) (m : Move) (hu : s.broker.units[u]? = some unit) :
    ∃ unit', (s.move m).broker.units[u]? = some unit' ∧ unit'.kind = unit.kind := by
  obtain ⟨unit', hu'⟩ := getElem?_units_move m hu
  obtain ⟨_, hu₀, -, hkind, -⟩ := crew_change hs m hu'
  obtain rfl := Option.some.inj (hu.symm.trans hu₀)
  exact ⟨unit', hu', hkind⟩

/-- What is found out stays so. -/
theorem seated_move (hs : s.Lawful) (m : Move) {r : RequestStep} (h : r.Seated s.broker) :
    r.Seated (s.move m).broker := by
  have hmethods : s.broker.methods.size ≤ (s.move m).broker.methods.size := by
    have h : s.broker.ledger.claims.size ≤ (s.move m).broker.ledger.claims.size :=
      (hs.extends_move m).claims
    simpa using h
  cases r with
  | asleep q t bell watch =>
    cases watch with
    | none => exact Nat.lt_of_lt_of_le h hmethods
    | some w =>
      obtain ⟨hq, unit, hu, hkind⟩ := h
      obtain ⟨unit', hu', hkind'⟩ := kind_move hs m hu
      exact ⟨Nat.lt_of_lt_of_le hq hmethods, unit', hu', hkind'.trans hkind⟩
  | attend q t => exact Nat.lt_of_lt_of_le h hmethods
  | collect q t => exact Nat.lt_of_lt_of_le h hmethods
  | conclude q id result => exact Nat.lt_of_lt_of_le h hmethods
  | _ => trivial

/-- In every state it is found out about all who wait or have waited. -/
theorem Reachable.seated {b : Broker} (hb : b.Fresh) (h : Reachable (launch b) s) :
    ∀ r, .request r ∈ s.pending → r.Seated s.broker := by
  induction h with
  | first =>
    intro r hr
    cases mem_pending_launch hr
  | @move s m hr ih =>
    have hs := hr.lawful hb
    intro r hmem
    obtain ⟨others, new, hnew, hbefore, hafter⟩ := s.exists_pending_move m
    rw [hafter, Multiset.mem_add, Multiset.mem_coe] at hmem
    rcases hmem with hold | hnow
    · exact seated_move hs m (ih r (hbefore ▸ Multiset.mem_add.2 (.inl hold)))
    · cases hnew with
      | @call c n hm =>
        have hkind := Call.kind_of_mem hnow
        cases r <;> trivial
      | @step i ch th a rest turn hruns =>
        rcases List.mem_append.1 hnow with hnext | hhired
        · have hbrings := Action.brings_of_run hruns.run _ hnext
          by_cases hkind : (Action.request r).kind = .request
          · rw [hkind] at hbrings
            obtain ⟨r₀, rfl⟩ := Action.exists_request_of_brings hbrings
            refine seated_move hs m
              (RequestStep.run_seated (ih _ hruns.mem_pending) ?_ hruns.run r hnext)
            rintro q t rfl
            obtain ⟨-, hmethod, -⟩ := hs.known _ (mem_duties.2 ⟨_, hruns.mem_pending, rfl⟩)
            rwa [← s.broker.size_claims]
          · cases r <;> trivial
        · obtain ⟨w, -, heq⟩ := List.mem_map.1 hhired
          cases heq
      | nothing h => exact absurd hnow List.not_mem_nil

/-! ### The result -/

/-- A thread has come down to what it had to do besides, and this is the outcome that it leaves behind. -/
def Told (s : System) (j : ThreadId) (rest : List Action) (o : Outcome) : Prop :=
  ∃ th, s.threads[j]? = some th ∧ th.agenda = rest ∧ th.reply = some (.outcome o)

theorem Runs.told {i : ThreadId} {ch : Choices} {th : Thread} {a : Action} {turn : Turn} {o : Outcome}
    (h : s.Runs m i ch th a rest turn) (hnext : turn.next = [])
    (hreply : turn.reply = some (.outcome o)) : (s.move m).Told i rest o :=
  ⟨_, h.thread_after, by rw [Thread.agenda_after h.agenda, hnext, List.nil_append], by
    rw [Thread.after, hreply, Option.some_or]⟩

/-- What a requester still has to do that has found its task complete. -/
inductive Takes (q : Inquiry) (t : TaskId) (id : UInt32) (r : TaskResult) : List Action → Prop where
  /-- To take the result. -/
  | collect : Takes q t id r [.request (.collect q t)]
  /-- To free the task. -/
  | free : Takes q t id r [.task (.free t .requester), .request (.conclude q id r)]
  /-- To answer with the result. -/
  | conclude : Takes q t id r [.request (.conclude q id r)]

variable {id : UInt32} {r : TaskResult} {as : List Action} {th : Thread}

/-- What becomes of a requester that has found its task complete, after some moves. -/
inductive Taking (s : System) (j : ThreadId) (q : Inquiry) (t : TaskId) (rest : List Action)
    (id : UInt32) (r : TaskResult) (ms : List Move) : Prop where
  /-- It is at one of the three steps that it takes to come to the answer, which it can make. -/
  | on {th : Thread} {as : List Action} (hth : (ms.foldl move s).threads[j]? = some th)
    (ha : th.agenda = as ++ rest) (has : Takes q t id r as)
    (hgoes : ∀ ch, ∃ s', (ms.foldl move s).step j ch = some s')
  /-- It has answered with the result. -/
  | answered {before after : List Move} {m : Move} {method : Method}
    (hms : ms = before ++ m :: after)
    (hmethod : (before.foldl move s).broker.methods[q.request.method]? = some method)
    (htold : ((before.foldl move s).move m).Told j rest
      (RequestStep.answer method q.request id r))

/-- A step that takes the result leads to the next one, or to the answer. -/
theorem Takes.run (hs : s.Lawful) (hseated : ∀ r, .request r ∈ s.pending → r.Seated s.broker)
    (hfinal : s.Final t r) (hid : ∀ x, s.broker.tasks[t]? = some x → x.compileId = id)
    (hth : s.threads[j]? = some th) (ha : th.agenda = as ++ rest) (has : Takes q t id r as)
    (ch : Choices) : ∃ a post turn, as = a :: post ∧
      a.run (th.caller j) ch s.broker = some turn ∧
        (Takes q t id r (turn.next ++ post) ∨ turn.next = [] ∧ post = [] ∧
          ∃ method, s.broker.methods[q.request.method]? = some method ∧
            turn.reply = some (.outcome (RequestStep.answer method q.request id r))) := by
  have hpending {a : Action} (h : a ∈ as) : a ∈ s.pending :=
    mem_pending.2 ⟨j, th, hth, ha ▸ List.mem_append_left _ h⟩
  cases has with
  | collect =>
    obtain ⟨x, hx, rfl, -⟩ := hfinal
    refine ⟨_, _, _, rfl, by rw [Action.run, RequestStep.run, hx]; rfl, .inl ?_⟩
    rw [hid x hx]
    exact .free
  | free =>
    obtain ⟨x, hx, hcomplete, hfreed, -⟩ := hs.freeing
      (mem_duties.2 ⟨_, hpending List.mem_cons_self, rfl⟩)
    obtain ⟨turn, hrun, hnext⟩ : ∃ turn, (Action.task (.free t .requester)).run (th.caller j) ch
        s.broker = some turn ∧ turn.next = [] := by
      rw [Action.run, TaskStep.run, hx]
      simp [hcomplete, hfreed, Turn.go]
    refine ⟨_, _, turn, rfl, hrun, .inl ?_⟩
    rw [hnext]
    exact .conclude
  | conclude =>
    obtain ⟨method, hmethod⟩ := Table.exists_getElem? (hseated _ (hpending List.mem_cons_self))
    refine ⟨_, _, _, rfl, by rw [Action.run, RequestStep.run, hmethod]; rfl, .inr ?_⟩
    exact ⟨rfl, rfl, method, hmethod, rfl⟩

/-- A requester that has found its task complete takes the result, whatever else happens. -/
theorem taking_of_collect {b : Broker} (hb : b.Fresh) (hr : Reachable (launch b) s)
    (hx : s.broker.tasks[t]? = some x) (hcomplete : x.complete = true)
    (hth : s.threads[j]? = some th) (ha : th.agenda = .request (.collect q t) :: rest)
    (ms : List Move) : s.Taking j q t rest x.compileId x.result ms := by
  have later (ms : List Move) : Reachable (launch b) (ms.foldl move s) ∧
      (ms.foldl move s).Final t x.result ∧
        ∀ x', (ms.foldl move s).broker.tasks[t]? = some x' → x'.compileId = x.compileId := by
    have hms : Reachable s (ms.foldl move s) := reachable_iff_foldl.2 ⟨ms, rfl⟩
    refine ⟨hr.trans hms, (Final.reachable ⟨x, hx, rfl, .inl hcomplete⟩ (hr.lawful hb) hms).2,
      fun x' hx' => ?_⟩
    obtain ⟨x'', hx'', hev⟩ := ((hr.lawful hb).extends_foldl ms).task hx
    obtain rfl := Option.some.inj (hx'.symm.trans hx'')
    exact hev.compileId
  have on {ms : List Move} {th : Thread} {as : List Action}
      (hth : (ms.foldl move s).threads[j]? = some th) (ha : th.agenda = as ++ rest)
      (has : Takes q t x.compileId x.result as) :
      s.Taking j q t rest x.compileId x.result ms := by
    obtain ⟨hr, hfinal, hid⟩ := later ms
    refine .on hth ha has fun ch => ?_
    obtain ⟨a, post, turn, rfl, hrun, -⟩ := has.run (hr.lawful hb) (hr.seated hb) hfinal hid hth ha ch
    exact ⟨_, step_eq_some_iff.2 ⟨th, a, _, turn, hth, ha, hrun, rfl⟩⟩
  induction ms using List.reverseRecOn with
  | nil => exact on hth ha .collect
  | append_singleton ms m ih =>
    cases ih with
    | answered hms hmethod htold =>
      exact .answered (by rw [hms, List.append_assoc, List.cons_append]) hmethod htold
    | @on th as hth ha has hgoes =>
      have hfold : (ms ++ [m]).foldl move s = (ms.foldl move s).move m := by
        rw [List.foldl_append]
        rfl
      cases hran : (ms.foldl move s).ranBy j m with
      | none => exact on (hfold ▸ thread_of_ranBy hth hran) ha has
      | some a =>
        obtain ⟨hr, hfinal, hid⟩ := later ms
        obtain ⟨ch, rest', turn, hruns⟩ := exists_runs_of_ranBy hran hth
        obtain ⟨a', post, turn', rfl, hrun, hlead⟩ :=
          has.run (hr.lawful hb) (hr.seated hb) hfinal hid hth ha ch
        obtain ⟨rfl, rfl⟩ := List.cons.inj (hruns.agenda.symm.trans ha)
        obtain rfl := Option.some.inj (hruns.run.symm.trans hrun)
        rcases hlead with htakes | ⟨hnext, rfl, method, hmethod, hreply⟩
        · refine on (hfold ▸ hruns.thread_after) ?_ htakes
          rw [Thread.agenda_after hruns.agenda, List.append_assoc]
          rfl
        · exact .answered rfl hmethod (hruns.told hnext hreply)

/-! ### Waiting -/

/-- What a thread finds in a move that is a look at a task. -/
def sight (j : ThreadId) (t : TaskId) (s : System) : Move → Option Sight
  | .step i ch =>
    match s.ranBy j (.step i ch), s.broker.tasks[t]? with
    | some a, some x => if a.watches t then some (s.broker.sight ch x) else none
    | _, _ => none
  | .call _ _ | .operate _ => none

/-- A thread waits for a task, and has taken these readings. -/
inductive Waits (limit : Option Nat) (s : System) (j : ThreadId) (q : Inquiry) (t : TaskId)
    (rest : List Action) : Readings → Prop where
  /-- It is about to begin. -/
  | begins {th : Thread} (hth : s.threads[j]? = some th)
    (ha : th.agenda = .request (.attend q t) :: rest) : Waits limit s j q t rest []
  /-- It sleeps. -/
  | sleeps {th : Thread} {bell : Nat} {watch : Option Watch} {rs : Readings}
    (hth : s.threads[j]? = some th)
    (ha : th.agenda = .request (.asleep q t bell watch) :: rest) (hwatch : Watches limit rs watch) :
    Waits limit s j q t rest rs

/-- How a wait ends in a move. -/
inductive Ends (limit : Option Nat) (s : System) (j : ThreadId) (q : Inquiry) (t : TaskId)
    (rest : List Action) (rs : Readings) (m : Move) : Prop where
  /-- The requester finds the task complete, and takes the result. -/
  | complete {x : Task} (hsight : s.sight j t m = some .complete) (hx : s.broker.tasks[t]? = some x)
    (htakes : ∀ ms, (s.move m).Taking j q t rest x.compileId x.result ms)
  /-- It finds compilation disabled, and is turned away. -/
  | disabled (hsight : s.sight j t m = some .disabled)
    (htold : (s.move m).Told j rest (.rejected (.unavailable .disabledWhileWaiting)))
  /-- It finds that there was no progress, and gives up. -/
  | abandoned {r : Option UInt64} {x : Task} (hsight : s.sight j t m = some (.reading r))
    (hstalled : Stalled limit (rs ++ [r])) (hx : s.broker.tasks[t]? = some x)
    (htold : (s.move m).Told j rest (.abandoned x.compileId))

/-- What has become of a wait after some moves. -/
inductive Wait (limit : Option Nat) (s : System) (j : ThreadId) (q : Inquiry) (t : TaskId)
    (rest : List Action) (ms : List Move) : Prop where
  /-- It goes on: at no look was the task complete, or compilation disabled, or a reason to give up.
  If the back-end is external, it needs no bell to look again. -/
  | on {rs : Readings} (hsights : s.gather (sight j t) ms = rs.map .reading)
    (hpatient : Patient limit rs) (hwaits : (ms.foldl move s).Waits limit j q t rest rs)
    (hgoes : ∀ ch : Choices, limit.isSome = true → ch.timeout = true →
      ∃ s', (ms.foldl move s).step j ch = some s')
  /-- Up to some move it went on, and that one ended it. -/
  | ended {before after : List Move} {m : Move} {rs : Readings} (hms : ms = before ++ m :: after)
    (hsights : s.gather (sight j t) before = rs.map .reading) (hpatient : Patient limit rs)
    (hends : (before.foldl move s).Ends limit j q t rest rs m)

variable {limit : Option Nat} {rs : Readings}

theorem Runs.sight {ch : Choices} {th : Thread} {a : Action} {turn : Turn}
    (h : s.Runs m j ch th a rest turn) (hx : s.broker.tasks[t]? = some x)
    (hwatches : a.watches t = true) : s.sight j t m = some (s.broker.sight ch x) := by
  have hran := h.ranBy_self
  rw [h.move] at hran ⊢
  rw [System.sight, hran, hx]
  exact if_pos hwatches

theorem sight_of_ranBy (h : s.ranBy j m = none) : s.sight j t m = none := by
  cases m with
  | step i ch => rw [sight, h]
  | call c n => rfl
  | operate o => rfl

/-- A step of a thread that waits is a look. -/
theorem Waits.looks (hs : s.Lawful) (h : s.Waits limit j q t rest rs)
    (hu : s.broker.units[q.unit]? = some unit) (hlimit : unit.patience s.broker.config = limit)
    {a : Action} (hran : s.ranBy j m = some a) :
    ∃ ch th x turn, s.Runs m j ch th a rest turn ∧ a.watches t = true ∧
      s.broker.tasks[t]? = some x ∧ turn.Looks limit rs q t x (s.broker.sight ch x) := by
  have known {th : Thread} {a : Action} (hth : s.threads[j]? = some th)
      (ha : th.agenda = a :: rest) {d : Duty} (hd : a.duty? = some d) : d.Known s.ledger :=
    hs.known _ (mem_duties.2 ⟨a, mem_pending.2 ⟨j, th, hth, ha ▸ List.mem_cons_self⟩, hd⟩)
  cases h with
  | @begins th hth ha =>
    obtain ⟨ch, rest', turn, hruns⟩ := exists_runs_of_ranBy hran hth
    obtain ⟨rfl, rfl⟩ := List.cons.inj (hruns.agenda.symm.trans ha)
    obtain ⟨x, hx⟩ := Table.exists_getElem? (t := s.broker.tasks) (known hth ha rfl).2
    have hrun : (RequestStep.attend q t).run (th.caller j) ch s.broker = some turn := hruns.run
    exact ⟨ch, th, x, turn, hruns, beq_self_eq_true t, hx,
      hlimit ▸ RequestStep.attend_looks hu hx hrun⟩
  | @sleeps th bell watch _ hth ha hwatch =>
    obtain ⟨ch, rest', turn, hruns⟩ := exists_runs_of_ranBy hran hth
    obtain ⟨rfl, rfl⟩ := List.cons.inj (hruns.agenda.symm.trans ha)
    obtain ⟨x, hx⟩ := Table.exists_getElem? (t := s.broker.tasks) (known hth ha rfl)
    refine ⟨ch, th, x, turn, hruns, beq_self_eq_true t, hx, ?_⟩
    have hrun := hruns.run
    rw [Action.run, RequestStep.run, hx] at hrun
    simp only at hrun
    split at hrun
    · refine RequestStep.wakeUp_looks (fun n hn => ?_) hwatch hrun
      rw [← hlimit, TierUnit.patience] at hn
      split at hn
      · exact (Option.mem_some_iff.1 hn).symm
      · cases hn
    · cases hrun

/-- Who waits without a bell can look again once the time is over. -/
theorem Waits.goes (hs : s.Lawful) (h : s.Waits limit j q t rest rs)
    (hu : s.broker.units[q.unit]? = some unit) {ch : Choices} (hlimit : limit.isSome = true)
    (htimeout : ch.timeout = true) : ∃ s', s.step j ch = some s' := by
  have known {th : Thread} {a : Action} (hth : s.threads[j]? = some th)
      (ha : th.agenda = a :: rest) {d : Duty} (hd : a.duty? = some d) : d.Known s.ledger :=
    hs.known _ (mem_duties.2 ⟨a, mem_pending.2 ⟨j, th, hth, ha ▸ List.mem_cons_self⟩, hd⟩)
  have goes {th : Thread} {a : Action} (hth : s.threads[j]? = some th)
      (ha : th.agenda = a :: rest) (hrun : ∃ turn, a.run (th.caller j) ch s.broker = some turn) :
      ∃ s', s.step j ch = some s' := by
    obtain ⟨turn, hrun⟩ := hrun
    exact ⟨_, step_eq_some_iff.2 ⟨th, a, rest, turn, hth, ha, hrun, rfl⟩⟩
  cases h with
  | @begins th hth ha =>
    obtain ⟨x, hx⟩ := Table.exists_getElem? (t := s.broker.tasks) (known hth ha rfl).2
    refine goes hth ha ?_
    rw [Action.run, RequestStep.run, hu, hx]
    simp only
    split
    · exact RequestStep.exists_leave _ _ _ _ _
    · exact ⟨_, rfl⟩
  | @sleeps th bell watch _ hth ha hwatch =>
    obtain ⟨x, hx⟩ := Table.exists_getElem? (t := s.broker.tasks) (known hth ha rfl)
    refine goes hth ha ?_
    cases watch with
    | none => cases hwatch ▸ hlimit
    | some w =>
      rw [Action.run, RequestStep.run, hx]
      simp only
      rw [if_pos (by simp [htimeout])]
      exact RequestStep.exists_wakeUp _ _ _ _ _ _

/-- Whatever happens, a wait goes by the rules of the back-end. -/
theorem wait_of_attend {b : Broker} (hb : b.Fresh) (hr : Reachable (launch b) s)
    (hu : s.broker.units[q.unit]? = some unit) (hth : s.threads[j]? = some th)
    (ha : th.agenda = .request (.attend q t) :: rest) (ms : List Move) :
    s.Wait (unit.patience s.broker.config) j q t rest ms := by
  have later (ms : List Move) : Reachable (launch b) (ms.foldl move s) ∧
      ∃ unit', (ms.foldl move s).broker.units[q.unit]? = some unit' ∧
        unit'.patience (ms.foldl move s).broker.config = unit.patience s.broker.config := by
    induction ms using List.reverseRecOn with
    | nil => exact ⟨hr, unit, hu, rfl⟩
    | append_singleton ms m ih =>
      obtain ⟨hr, unit', hu', hpatience⟩ := ih
      obtain ⟨unit'', hu'', hkind⟩ := kind_move (hr.lawful hb) m hu'
      rw [List.foldl_append, List.foldl_cons, List.foldl_nil]
      refine ⟨hr.move m, unit'', hu'', ?_⟩
      rw [config_move, TierUnit.patience, hkind]
      exact hpatience
  have on {ms : List Move} {rs : Readings} (hsights : s.gather (sight j t) ms = rs.map .reading)
      (hpatient : Patient (unit.patience s.broker.config) rs)
      (hwaits : (ms.foldl move s).Waits (unit.patience s.broker.config) j q t rest rs) :
      s.Wait (unit.patience s.broker.config) j q t rest ms := by
    obtain ⟨hr, unit', hu', -⟩ := later ms
    exact .on hsights hpatient hwaits fun ch => hwaits.goes (hr.lawful hb) hu'
  induction ms using List.reverseRecOn with
  | nil => exact on rfl (patient_nil _) (.begins hth ha)
  | append_singleton ms m ih =>
    cases ih with
    | ended hms hsights hpatient hends =>
      exact .ended (by rw [hms, List.append_assoc, List.cons_append]) hsights hpatient hends
    | @on rs hsights hpatient hwaits =>
      have hfold : (ms ++ [m]).foldl move s = (ms.foldl move s).move m := by
        rw [List.foldl_append]
        rfl
      obtain ⟨hr, unit', hu', hlimit⟩ := later ms
      cases hran : (ms.foldl move s).ranBy j m with
      | none =>
        refine on ?_ hpatient (hfold ▸ ?_)
        · rw [gather_concat, sight_of_ranBy hran, hsights]
          exact List.append_nil _
        · cases hwaits with
          | begins hth ha => exact .begins (thread_of_ranBy hth hran) ha
          | sleeps hth ha hwatch => exact .sleeps (thread_of_ranBy hth hran) ha hwatch
      | some a =>
        obtain ⟨ch, th, x, turn, hruns, hwatches, hx, hlooks⟩ :=
          hwaits.looks (hr.lawful hb) hu' hlimit hran
        have hsight := hruns.sight hx hwatches
        generalize hfound : (ms.foldl move s).broker.sight ch x = found at hsight hlooks
        cases hlooks with
        | complete hnext =>
          have hs := hr.lawful hb
          have hcomplete : x.complete = true := Broker.complete_of_sight hfound
          have hmove : Reachable (ms.foldl move s) ((ms.foldl move s).move m) := .move m .first
          obtain ⟨-, x', hx', hresult, -⟩ :=
            Final.reachable ⟨x, hx, rfl, .inl hcomplete⟩ hs hmove
          obtain ⟨_, hx'', hev⟩ := (hs.extends_move m).task hx
          obtain rfl := Option.some.inj (hx'.symm.trans hx'')
          refine .ended rfl hsights hpatient (.complete hsight hx fun ms => ?_)
          rw [← hev.compileId, ← hresult]
          refine taking_of_collect hb (hr.move m) hx' (hev.complete hcomplete) hruns.thread_after ?_ ms
          rw [Thread.agenda_after hruns.agenda, hnext]
          rfl
        | disabled hnext hreply =>
          exact .ended rfl hsights hpatient (.disabled hsight (hruns.told hnext hreply))
        | abandoned hstalled hnext hreply =>
          exact .ended rfl hsights hpatient
            (.abandoned hsight hstalled hx (hruns.told hnext hreply))
        | sleeps hopen hnext hwatch =>
          refine on ?_ (hpatient.concat hopen) (hfold ▸ .sleeps hruns.thread_after
            (by rw [Thread.agenda_after hruns.agenda, hnext]; rfl) hwatch)
          rw [gather_concat, hsight, hsights, List.map_append]
          rfl

/-! ### Every run -/

/-- What holds of waiting in a state. -/
structure Waiting (config : Config) (s : System) : Prop where
  /-- Whoever is about to wait waits by the rules of its back-end, whatever happens next. -/
  wait : ∀ {j : ThreadId} {th : Thread} {q : Inquiry} {t : TaskId} {rest : List Action},
    s.threads[j]? = some th → th.agenda = .request (.attend q t) :: rest →
    ∃ unit, s.broker.units[q.unit]? = some unit ∧
      ∀ ms, s.Wait (unit.patience config) j q t rest ms
  /-- Whoever gives up has waited for an external back-end. -/
  external : ∀ {m : Move} {j : ThreadId} {ch : Choices} {th : Thread} {step : RequestStep}
    {rest : List Action} {turn : Turn} {id : UInt32},
    s.Runs m j ch th (.request step) rest turn → turn.reply = some (.outcome (.abandoned id)) →
    ∃ q t bell watch unit, step = .asleep q t bell watch ∧
      s.broker.units[q.unit]? = some unit ∧ unit.kind = .external

/-- In every run of a broker requesters wait by the rules: they go on until the task is complete,
until compilation is disabled, or until, on an external back-end, they are stalled for the first
time. -/
theorem waiting_of_run {config : Config} {parts : Broker.Parts} {b : Broker}
    (hb : Broker.assemble config parts = .ok b) (ms : List Move) :
    Waiting config (ms.foldl move (launch b)) := by
  have hfresh := Broker.fresh_assemble hb
  have hr : Reachable (launch b) (ms.foldl move (launch b)) := reachable_iff_foldl.2 ⟨ms, rfl⟩
  have hconfig : (ms.foldl move (launch b)).broker.config = config := by
    obtain ⟨units, -, rfl⟩ := Broker.exists_of_assemble hb
    exact hr.config
  constructor
  · intro j th q t rest hth ha
    have hduty : .attend q.unit t ∈ (ms.foldl move (launch b)).duties :=
      mem_duties.2 ⟨_, mem_pending.2 ⟨j, th, hth, ha ▸ List.mem_cons_self⟩, rfl⟩
    obtain ⟨hu, -⟩ := (hr.lawful hfresh).known _ hduty
    rw [show (ms.foldl move (launch b)).ledger = (ms.foldl move (launch b)).broker.ledger from rfl,
      Broker.size_stocks] at hu
    obtain ⟨unit, hu⟩ := Table.exists_getElem? hu
    exact ⟨unit, hu, hconfig ▸ wait_of_attend hfresh hr hu hth ha⟩
  · intro m j ch th step rest turn id h hreply
    obtain ⟨q, t, bell, w, rfl⟩ := RequestStep.watch_of_abandoned h.run hreply
    obtain ⟨-, unit, hu, hkind⟩ := hr.seated hfresh _ h.mem_pending
    exact ⟨q, t, bell, _, unit, rfl, hu, hkind⟩

end System

/-! ### An external back-end -/

/-- A configuration with one tier, whose back-end is external. -/
def Config.foreign : Config where
  dynamicPool := false
  slicesMax := 2
  tiers := [{ TierConfig.solo with compiler := .external }]

namespace Broker

/-- What a broker with an external back-end is built from. -/
def Parts.foreign : Parts := { Parts.solo with backends := [(1, .external)] }

/-- A broker with an external back-end. -/
def foreign : Broker := (assemble .foreign .foreign).toOption.getD default

theorem assemble_foreign : assemble .foreign .foreign = .ok foreign := rfl

end Broker

/-- Whether a thread is about to wait for a task of a unit, and has nothing else to do. -/
def Thread.attends (u : UnitId) (t : TaskId) (th : Thread) : Bool :=
  match th.agenda with
  | [.request (.attend q t')] => q.unit == u && t' == t
  | _ => false

theorem Thread.exists_of_attends {u : UnitId} {t : TaskId} {th : Thread}
    (h : th.attends u t = true) : ∃ q, q.unit = u ∧ th.agenda = [.request (.attend q t)] := by
  unfold attends at h
  split at h
  · rename_i q t' ha
    obtain ⟨hu, ht⟩ := Bool.and_eq_true_iff.1 h
    obtain rfl := beq_iff_eq.1 ht
    exact ⟨q, beq_iff_eq.1 hu, ha⟩
  · cases h

namespace System

/-- A requester is about to wait, while the worker has nothing to do. -/
def foreignAsks : List Move :=
  soloStart ++ [.call (.request { method := 0, tier := 1, reason := .normal, blocking := true }) 0]
    ++ times 2 20

/-- There is progress once, and none after it. -/
def foreignStalls : List Move :=
  [.step 2 { progress := some 1 }, .step 2 { timeout := true, progress := some 1 },
    .step 2 { timeout := true, progress := some 2 }, .step 2 { timeout := true, progress := some 2 },
    .step 2 { timeout := true, progress := some 2 }]

/-- The requester gives up when it has read the same for the third time. -/
theorem waiting_of_foreignAsks : ∃ q,
    (foreignAsks.foldl move (launch .foreign)).Wait (some 2) 2 q 0 [] foreignStalls ∧
      (foreignAsks.foldl move (launch .foreign)).gather (sight 2 0) foreignStalls =
        [some 1, some 1, some 2, some 2, some 2].map .reading ∧
      ((foreignAsks ++ foreignStalls).foldl move (launch .foreign)).threads[2]?.map (·.reply) =
        some (some (.outcome (.abandoned 1))) := by
  have hattends : (foreignAsks.foldl move (launch .foreign)).threads[2]?.map (Thread.attends 0 0) =
      some true := by decide +kernel
  obtain ⟨th, hth, hattends⟩ := Option.map_eq_some_iff.1 hattends
  obtain ⟨q, hq, ha⟩ := Thread.exists_of_attends hattends
  obtain ⟨unit, hu, hwait⟩ := (waiting_of_run Broker.assemble_foreign foreignAsks).wait hth ha
  have hkind : (foreignAsks.foldl move (launch .foreign)).broker.units[0]?.map (·.kind) =
      some .external := by decide +kernel
  rw [← hq, hu] at hkind
  have hpatience : unit.patience .foreign = some 2 := if_pos (Option.some.inj hkind)
  exact ⟨q, hpatience ▸ hwait foreignStalls, by decide +kernel, by decide +kernel⟩

end System

end JitBroker