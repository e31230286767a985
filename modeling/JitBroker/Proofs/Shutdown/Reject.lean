import JitBroker.Proofs.Fittings
import JitBroker.Proofs.Shutdown.Calm

/-!
# Requests when compilation is disabled

A request that begins when compilation is disabled is rejected within three steps of its thread, none
of which has to wait, whatever other threads do in between (`System.Refused.rejected`).
-/

namespace JitBroker

/-- The unit that serves a tier exists. -/
theorem Broker.lt_of_unitOf {b : Broker} {tier : Tier} {u : UnitId} (h : b.unitOf? tier = some u) :
    u < b.units.size := by
  obtain ⟨hu, -⟩ := List.findIdx?_eq_some_iff_getElem.1 h
  exact hu

namespace System

variable {s s' : System} {j : ThreadId} {rest : List Action} {n : Nat} {m : Move} {th : Thread}

/-- Whether a move is a step of a certain thread. -/
def Move.isStepOf (j : ThreadId) : Move → Bool
  | .step i _ => i == j
  | _ => false

/-- A thread whose step a move is not has still before it what it had. -/
theorem thread_of_isStepOf (hth : s.threads[j]? = some th) (h : m.isStepOf j = false) :
    (s.move m).threads[j]? = some th := by
  refine thread_of_ranBy hth ?_
  cases m with
  | step i ch => exact if_neg (by simpa [Move.isStepOf] using h)
  | call c n => rfl
  | operate o => rfl

/-- What each step of a thread brings nearer, and no other move puts off, comes after so many steps of
the thread. -/
theorem exists_prefix_of_steps {I : System → Prop} {P : System → Nat → Prop}
    (hmove : ∀ {s : System} {n : Nat} (m : Move), I s → P s (n + 1) →
      I (s.move m) ∧ ∃ n', P (s.move m) n' ∧ n' ≤ n + 1 - (m.isStepOf j).toNat)
    (hinv : I s) (h : P s n) {ms : List Move} (hn : n ≤ ms.countP (·.isStepOf j)) :
    ∃ pre, pre <+: ms ∧ P (pre.foldl System.move s) 0 := by
  induction ms generalizing s n with
  | nil =>
    obtain rfl : n = 0 := Nat.le_zero.1 hn
    exact ⟨[], List.prefix_rfl, h⟩
  | cons m ms ih =>
    cases n with
    | zero => exact ⟨[], List.nil_prefix, h⟩
    | succ n =>
      obtain ⟨hinv', n', h', hn'⟩ := hmove m hinv h
      have hcount : (m :: ms).countP (·.isStepOf j) =
          ms.countP (·.isStepOf j) + (m.isStepOf j).toNat := by
        rw [List.countP_cons]
        cases m.isStepOf j <;> rfl
      obtain ⟨pre, hpre, hend⟩ := ih hinv' h' (by omega)
      exact ⟨m :: pre, List.cons_prefix_cons.2 ⟨rfl, hpre⟩, hend⟩

/-- A request of a thread will be rejected before the thread goes on with the rest of its agenda,
after so many steps at the latest. -/
inductive Refused (s : System) (j : ThreadId) (rest : List Action) : Nat → Prop where
  /-- It begins. -/
  | enter {th : Thread} {r : Request} (hth : s.threads[j]? = some th)
    (ha : th.agenda = .request (.enter r) :: rest) : Refused s j rest 3
  /-- It has found its unit. -/
  | backend {th : Thread} {q : Inquiry} (hth : s.threads[j]? = some th)
    (ha : th.agenda = .request (.backend q) :: rest) (hunit : q.unit < s.broker.units.size) :
    Refused s j rest 2
  /-- It is to see whether compilation is disabled. -/
  | enabled {th : Thread} {q : Inquiry} (hth : s.threads[j]? = some th)
    (ha : th.agenda = .request (.enabled q) :: rest) : Refused s j rest 1
  /-- It has been rejected. -/
  | answered {th : Thread} {e : BrokerError} (hth : s.threads[j]? = some th)
    (ha : th.agenda = rest) (hreply : th.reply = some (.outcome (.rejected e))) :
    Refused s j rest 0

namespace Refused

/-- A step of the thread brings its request nearer to the end. -/
theorem step (h : s.Refused j rest (n + 1)) (hdis : s.broker.disabled = true) (ch : Choices) :
    ∃ s' n', s.step j ch = some s' ∧ n' ≤ n ∧ s'.Refused j rest n' := by
  have turns {th : Thread} {a : Action} {turn : Turn} (hth : s.threads[j]? = some th)
      (ha : th.agenda = a :: rest) (hrun : a.run (th.caller j) ch s.broker = some turn) :
      s.step j ch = some (s.turned j turn) :=
    step_eq_some_iff.2 ⟨th, a, rest, turn, hth, ha, hrun, rfl⟩
  have rejects {th : Thread} {a : Action} {e : BrokerError} (hth : s.threads[j]? = some th)
      (ha : th.agenda = a :: rest)
      (hrun : a.run (th.caller j) ch s.broker = RequestStep.reject s.broker e) :
      ∃ s' n', s.step j ch = some s' ∧ n' ≤ n ∧ s'.Refused j rest n' :=
    ⟨_, 0, turns hth ha hrun, Nat.zero_le _,
      .answered (threadsAfter_self hth) (Thread.agenda_after ha) rfl⟩
  cases h with
  | @enter th r hth ha =>
    cases hinit : s.broker.initialized with
    | false => exact rejects hth ha (by rw [Action.run, RequestStep.run, hinit]; rfl)
    | true =>
      cases hu : s.broker.unitOf? r.tier with
      | none => exact rejects hth ha (by simp [Action.run, RequestStep.run, hinit, hu]; rfl)
      | some u =>
        refine ⟨_, 2, turns hth ha (by simp [Action.run, RequestStep.run, hinit, hu]; rfl),
          Nat.le_refl _, .backend (threadsAfter_self hth) (Thread.agenda_after ha) ?_⟩
        exact Broker.lt_of_unitOf hu
  | @backend th q hth ha hunit =>
    obtain ⟨unit, hunit⟩ := Table.exists_getElem? hunit
    have goesOn (hrun : (RequestStep.backend q).run (th.caller j) ch s.broker =
        RequestStep.next s.broker (.enabled q)) :
        ∃ s' n', s.step j ch = some s' ∧ n' ≤ 1 ∧ s'.Refused j rest n' :=
      ⟨_, 1, turns hth ha hrun, Nat.le_refl _,
        .enabled (threadsAfter_self hth) (Thread.agenda_after ha)⟩
    cases hi : unit.init with
    | failed message => exact rejects hth ha (by simp [Action.run, RequestStep.run, hunit, hi]; rfl)
    | _ => exact goesOn (by simp [RequestStep.run, hunit, hi])
  | @enabled th q hth ha =>
    exact rejects hth ha (by rw [Action.run, RequestStep.run, hdis]; rfl)

/-- What other threads do, and what happens outside, changes nothing. -/
theorem congr (h : s.Refused j rest n)
    (hself : ∀ {th : Thread}, s.threads[j]? = some th → s'.threads[j]? = some th)
    (hsize : s'.broker.units.size = s.broker.units.size) : s'.Refused j rest n := by
  cases h with
  | enter hth ha => exact .enter (hself hth) ha
  | backend hth ha hunit => exact .backend (hself hth) ha (hunit.trans_eq hsize.symm)
  | enabled hth ha => exact .enabled (hself hth) ha
  | answered hth ha hreply => exact .answered (hself hth) ha hreply

/-- A move brings a request nearer to the end if it is a step of its thread, and leaves it otherwise. -/
theorem move (h : s.Refused j rest (n + 1)) (hs : s.Lawful) (hdis : s.broker.disabled = true)
    (m : Move) : ∃ n', (s.move m).Refused j rest n' ∧ n' ≤ n + 1 - (m.isStepOf j).toNat := by
  have hsize : (s.move m).broker.units.size = s.broker.units.size := by
    simpa [ledger] using (hs.extends_move m).stocks
  cases hm : m.isStepOf j with
  | false => exact ⟨n + 1, h.congr (thread_of_isStepOf · hm) hsize, Nat.le_refl _⟩
  | true =>
    cases m with
    | step i ch =>
      obtain rfl : i = j := by simpa [Move.isStepOf] using hm
      obtain ⟨s', n', hstep, hn, h⟩ := h.step hdis ch
      rw [System.move, hstep]
      exact ⟨n', h, hn⟩
    | call c k => cases hm
    | operate o => cases hm

/-- A request that begins when compilation is disabled is rejected before its thread has made so many
steps. -/
theorem rejected (h : s.Refused j rest n) (hs : s.Lawful) (hdis : s.broker.disabled = true)
    {ms : List Move} (hn : n ≤ ms.countP (·.isStepOf j)) :
    ∃ pre, pre <+: ms ∧ ∃ th e, (pre.foldl System.move s).threads[j]? = some th ∧
      th.agenda = rest ∧ th.reply = some (.outcome (.rejected e)) := by
  obtain ⟨pre, hpre, hend⟩ := exists_prefix_of_steps
    (I := fun s => s.Lawful ∧ s.broker.disabled = true) (P := fun s => s.Refused j rest)
    (fun m ⟨hs, hdis⟩ h => ⟨⟨hs.move m, (hs.extends_move m).disabled hdis⟩, h.move hs hdis m⟩)
    ⟨hs, hdis⟩ h hn
  cases hend with
  | answered hth ha hreply => exact ⟨pre, hpre, _, _, hth, ha, hreply⟩

end Refused

end System

end JitBroker
