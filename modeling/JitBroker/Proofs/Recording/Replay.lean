import JitBroker.Proofs.Recording.Window

/-!
# Replays

A decompilation that detached code is recorded once: the records that were made, and those that are
still to be made, are the decompilations that did (`System.detached_eq_recorded`).

A replay goes through the records that it took from the window one after the other. Each is left
out if its class is unloaded at that time, and is requested otherwise. What a thread has handled and
what it has requested is read off its steps (`System.handled?`, `System.entered?`); at any time in a
replay it has handled the first of the records, in order and each once, and requested those that it
did not leave out (`System.replay_foldl`). When it answers, it has handled all of them.

* `System.recorder_of_run`: all that holds of the recorder of a broker.
-/

namespace JitBroker

/-! ### Records of decompilations -/

/-- Only who detaches code brings a record. -/
theorem Action.Kind.eq_detach {k : Action.Kind} (h : k.brings .record = true) : k = .detach := by
  revert h
  cases k <;> decide

theorem Action.exists_detach {a : Action} (h : a.kind = .detach) :
    ∃ d, a = .control (.detach d) := by
  unfold kind at h
  split at h
  all_goals first
    | exact ⟨_, rfl⟩
    | cases h

/-- The decompilation that an action records. -/
def Action.recorded? : Action → Option Decompilation
  | .control (.record d) => some d
  | _ => none

namespace System

variable {s first : System} {m : Move} {i : ThreadId} {ch : Choices} {th : Thread} {a : Action}
  {rest : List Action} {turn : Turn}

/-- The decompilation for which a move detaches code. -/
def detached? (s : System) (m : Move) : Option Decompilation :=
  match s.ran m with
  | some (.control (.detach d)) => if (s.broker.detach d).1.isSome then some d else none
  | _ => none

/-- An action that detaches code brings one record, and no other action brings any. -/
theorem Runs.recorded_brings (h : s.Runs m i ch th a rest turn) :
    turn.brings.filterMap Action.recorded? = (s.detached? m).toList := by
  have hstart : (turn.hired.toList.map fun w => Action.worker w .start).filterMap
      Action.recorded? = [] := by
    cases turn.hired <;> rfl
  rw [Turn.brings, List.filterMap_append, hstart, List.append_nil]
  have hrun := h.run
  unfold detached?
  rw [h.ran]
  split
  · rename_i d heq
    obtain rfl := Option.some.inj heq
    rw [Action.run, ControlStep.run] at hrun
    split at hrun
    · rename_i code b hdetach
      obtain rfl := Option.some.inj hrun
      rw [hdetach, Option.isSome_some, if_pos rfl]
      cases Broker.unitOf? _ d.tier <;> rfl
    · rename_i b hdetach
      obtain rfl := Option.some.inj hrun
      rw [hdetach, Option.isSome_none, if_neg Bool.false_ne_true]
      rfl
  · rename_i hdetach
    refine List.filterMap_eq_nil_iff.2 fun a' ha' => ?_
    have hbrings := Action.brings_of_run hrun a' ha'
    unfold Action.recorded?
    split
    · obtain ⟨d, rfl⟩ := Action.exists_detach (Action.Kind.eq_detach hbrings)
      exact absurd rfl (hdetach d)
    · rfl

/-- A call records nothing. -/
theorem recorded_call (c : Call) : c.agenda.filterMap Action.recorded? = [] := by
  refine List.filterMap_eq_nil_iff.2 fun a ha => ?_
  have hkind := Call.kind_of_mem ha
  unfold Action.recorded?
  split
  · revert hkind
    simp [Action.kind]
  · rfl

/-- The decompilations that detached code are those whose record was made and those whose record is
still to be made. -/
theorem detached_eq_recorded (hfirst : first.pending.filterMap Action.recorded? = 0)
    (ms : List Move) : (first.gather detached? ms : Multiset Decompilation) =
      (first.trace ms).filterMap Action.recorded? +
        (ms.foldl move first).pending.filterMap Action.recorded? := by
  induction ms using List.reverseRecOn with
  | nil => exact hfirst.symm
  | append_singleton ms m ih =>
    generalize hs : ms.foldl move first = s at ih
    rw [gather_concat, trace_append, hs, List.foldl_concat, hs, trace, trace, List.append_nil,
      List.filterMap_append, ← Multiset.coe_add, ← Multiset.coe_add, ih, add_assoc, add_assoc]
    congr 1
    cases hran : s.ran m with
    | some a =>
      obtain ⟨i, ch, th, rest, turn, h⟩ := exists_runs hran
      have hbalance := h.filterMap_pending Action.recorded?
      rw [h.recorded_brings] at hbalance
      rw [← hbalance, Option.toList_some, List.filterMap_cons, add_comm]
      cases Action.recorded? a <;> rfl
    | none =>
      have hsame : (s.move m).pending.filterMap Action.recorded? =
          s.pending.filterMap Action.recorded? := by
        cases m with
        | operate o => rfl
        | call c n =>
          rw [System.move, call, pending_spawn, Multiset.filterMap_add, Multiset.filterMap_coe,
            recorded_call]
          exact add_zero _
        | step i ch => rw [move_step_of_ran hran]
      rw [detached?, hran, hsame]
      exact add_comm _ _

end System

/-! ### What a thread does in a replay -/

/-- Whether an action of this kind may come of a request that was entered. -/
def Action.Kind.ofRequest : Action.Kind → Bool
  | .request | .control | .task | .fault => true
  | _ => false

theorem Action.Kind.ofRequest_of_brings {k k' : Action.Kind}
    (hk : k = .enter ∨ k.ofRequest = true) (h : k.brings k' = true) : k'.ofRequest = true := by
  revert hk h
  cases k <;> cases k' <;> decide

/-- The request for a recorded decompilation. -/
def Decompilation.request (d : Decompilation) : Request where
  method := d.method
  bci := d.bci
  tier := d.tier
  reason := .checkpointRestore

namespace System

/-- The record that a thread handles in a move, and whether its class is unloaded. -/
def handled? (i : ThreadId) (s : System) (m : Move) : Option (Decompilation × Bool) :=
  match s.ranBy i m with
  | some (.control (.again (d :: _) _)) =>
    some (d, (s.broker.methods[d.method]?).any s.broker.isUnloaded)
  | _ => none

/-- The request that a thread enters in a move. -/
def entered? (i : ThreadId) (s : System) (m : Move) : Option Request :=
  match s.ranBy i m with
  | some (.request (.enter r)) => some r
  | _ => none

/-- An agenda in a replay, with the records to come, the summary so far, the requests that are still
to be entered, and what is to be done after the replay. -/
inductive Replaying (rest : List Action) :
    List Decompilation → ReplaySummary → List Request → List Action → Prop where
  /-- The next record is to be handled, or the answer is to be given. -/
  | again (todo : List Decompilation) (sum : ReplaySummary) :
    Replaying rest todo sum [] (.control (.again todo sum) :: rest)
  /-- A request is to be entered. -/
  | enter (todo : List Decompilation) (sum : ReplaySummary) (r : Request) :
    Replaying rest todo sum [r] (.request (.enter r) :: .control (.tally todo sum) :: rest)
  /-- A request was entered, and is under way or over. -/
  | request {todo : List Decompilation} {sum : ReplaySummary} {pre : List Action}
    (h : ∀ a ∈ pre, a.kind.ofRequest = true) :
    Replaying rest todo sum [] (pre ++ .control (.tally todo sum) :: rest)

/-- The first records of a replay were handled, one after the other, and requested but for those
left out. -/
structure Handled (ds todo : List Decompilation) (sum : ReplaySummary) (owed : List Request)
    (hs : List (Decompilation × Bool)) (rs : List Request) : Prop where
  /-- Each was handled once, in order. -/
  order : hs.map (·.1) ++ todo = ds
  /-- Those were requested whose class was not unloaded, or will be at once. -/
  requests : rs ++ owed = (hs.filter (!·.2)).map (·.1.request)
  /-- They are counted. -/
  submitted : sum.submitted = hs.countP (!·.2)
  /-- So are the others. -/
  skipped : sum.skipped = hs.countP (·.2)

/-- A replay that has handled all records counts each of them. -/
theorem Handled.total {ds : List Decompilation} {sum : ReplaySummary} {owed : List Request}
    {hs : List (Decompilation × Bool)} {rs : List Request} (h : Handled ds [] sum owed hs rs) :
    sum.submitted + sum.skipped = ds.length := by
  have hlength := congrArg List.length h.order
  rw [List.append_nil, List.length_map] at hlength
  have hsplit := List.length_eq_countP_add_countP (fun h : Decompilation × Bool => h.2) (l := hs)
  have hneg : hs.countP (fun h => decide ¬h.2 = true) = hs.countP (!·.2) :=
    List.countP_congr fun h _ => by cases h.2 <;> decide
  rw [h.submitted, h.skipped, ← hlength, hsplit, hneg, Nat.add_comm]

/-- A thread is in a replay. -/
structure InReplay (s : System) (i : ThreadId) (rest : List Action) (ds : List Decompilation)
    (hs : List (Decompilation × Bool)) (rs : List Request) (todo : List Decompilation)
    (sum : ReplaySummary) (owed : List Request) (th : Thread) : Prop where
  /-- This is the thread. -/
  thread : s.threads[i]? = some th
  /-- It is in a replay. -/
  agenda : Replaying rest todo sum owed th.agenda
  /-- It has handled the first records. -/
  handled : Handled ds todo sum owed hs rs
  /-- The other ones name methods that are known. -/
  known : ∀ d ∈ todo, d.method < s.broker.methods.size

/-- A thread has answered a replay. -/
structure Answered (s : System) (i : ThreadId) (rest : List Action) (ds : List Decompilation)
    (hs : List (Decompilation × Bool)) (rs : List Request) (sum : ReplaySummary) (th : Thread) :
    Prop where
  /-- This is the thread. -/
  thread : s.threads[i]? = some th
  /-- It goes on with what comes after the replay. -/
  agenda : th.agenda = rest
  /-- This is the answer. -/
  reply : th.reply = some (.replayed sum)
  /-- It has handled all records. -/
  handled : Handled ds [] sum [] hs rs

variable {s : System} {m : Move} {i j : ThreadId} {ch : Choices} {th : Thread} {a : Action}
  {rest : List Action} {turn : Turn} {ds todo : List Decompilation}
  {hs : List (Decompilation × Bool)} {rs owed : List Request} {sum : ReplaySummary}

/-- Methods that are known stay known. -/
theorem size_methods_le (hs : s.Lawful) (m : Move) :
    s.broker.methods.size ≤ (s.move m).broker.methods.size := by
  have hclaims := (hs.extends_move m).claims
  simpa [ledger] using hclaims

/-! ### One step of a replay -/

/-- A replay that handles a record goes on with the next one, or requests this one first. -/
theorem InReplay.again {d : Decompilation} (hl : s.Lawful)
    (h : InReplay s i rest ds hs rs (d :: todo) sum owed th)
    (hruns : s.Runs m i ch th (.control (.again (d :: todo) sum)) rest turn) (howed : owed = []) :
    ∃ todo' sum' owed' th', InReplay (s.move m) i rest ds (hs ++ (s.handled? i m).toList)
      (rs ++ (s.entered? i m).toList) todo' sum' owed' th' := by
  subst howed
  obtain ⟨horder, hrequests, hsubmitted, hskipped⟩ := h.handled
  obtain ⟨x, hx⟩ := Table.exists_getElem? (h.known d List.mem_cons_self)
  have hknown : ∀ d' ∈ todo, d'.method < (s.move m).broker.methods.size := fun d' hd' =>
    (h.known d' (List.mem_cons_of_mem _ hd')).trans_le (size_methods_le hl m)
  have hthread := hruns.thread_after
  have hrun := hruns.run
  rw [Action.run, ControlStep.run, hx] at hrun
  rw [List.append_nil] at hrequests
  simp only [handled?, entered?, hruns.ranBy_self, hx, Option.any_some, Option.toList_some,
    Option.toList_none, List.append_nil]
  cases hunloaded : s.broker.isUnloaded x with
  | true =>
    simp only [hunloaded, if_true] at hrun
    obtain rfl := Option.some.inj hrun
    refine ⟨todo, { sum with skipped := sum.skipped + 1 }, [], _, hthread, ?_, ⟨?_, ?_, ?_, ?_⟩,
      hknown⟩
    · rw [Thread.agenda_after hruns.agenda]
      exact .again _ _
    · rw [List.map_append, List.append_assoc]
      exact horder
    · simp [hrequests]
    · simp [hsubmitted]
    · simp [hskipped]
  | false =>
    simp only [hunloaded, Bool.false_eq_true, if_false] at hrun
    obtain rfl := Option.some.inj hrun
    refine ⟨todo, { sum with submitted := sum.submitted + 1 }, [d.request], _, hthread, ?_,
      ⟨?_, ?_, ?_, ?_⟩, hknown⟩
    · rw [Thread.agenda_after hruns.agenda]
      exact .enter _ _ _
    · rw [List.map_append, List.append_assoc]
      exact horder
    · simp [hrequests]
    · simp [hsubmitted]
    · simp [hskipped]

/-- A step of a thread that is in a replay leaves it in the replay, or is its answer. -/
theorem InReplay.step (hl : s.Lawful) (h : InReplay s i rest ds hs rs todo sum owed th)
    (hran : s.ranBy i m = some a) :
    (∃ todo' sum' owed' th', InReplay (s.move m) i rest ds (hs ++ (s.handled? i m).toList)
      (rs ++ (s.entered? i m).toList) todo' sum' owed' th') ∨
      ∃ th', Answered (s.move m) i rest ds (hs ++ (s.handled? i m).toList)
        (rs ++ (s.entered? i m).toList) sum th' := by
  obtain ⟨ch, rest', turn, hruns⟩ := exists_runs_of_ranBy hran h.thread
  obtain ⟨horder, hrequests, hsubmitted, hskipped⟩ := h.handled
  have hknown : ∀ d ∈ todo, d.method < (s.move m).broker.methods.size := fun d hd =>
    (h.known d hd).trans_le (size_methods_le hl m)
  have hthread := hruns.thread_after
  have hagenda := h.agenda
  generalize hcons : th.agenda = agenda at hagenda
  rw [hruns.agenda] at hcons
  cases hagenda with
  | again =>
    obtain ⟨rfl, rfl⟩ := List.cons.inj hcons
    cases todo with
    | cons d todo => exact .inl (h.again hl hruns rfl)
    | nil =>
      right
      obtain rfl := Option.some.inj hruns.run
      simp only [handled?, entered?, hruns.ranBy_self, Option.toList_none, List.append_nil]
      exact ⟨_, hthread, Thread.agenda_after hruns.agenda, rfl, h.handled⟩
  | enter _ =>
    obtain ⟨rfl, rfl⟩ := List.cons.inj hcons
    left
    simp only [handled?, entered?, hruns.ranBy_self, Option.toList_none, Option.toList_some,
      List.append_nil]
    refine ⟨todo, sum, [], _, hthread, ?_, ⟨horder, ?_, hsubmitted, hskipped⟩, hknown⟩
    · rw [Thread.agenda_after hruns.agenda]
      exact .request fun a' ha' =>
        Action.Kind.ofRequest_of_brings (.inl rfl) (Action.brings_of_run hruns.run a' ha')
    · rw [List.append_nil, hrequests]
  | @request pre hpre =>
    left
    cases pre with
    | nil =>
      obtain ⟨rfl, rfl⟩ := List.cons.inj hcons
      simp only [handled?, entered?, hruns.ranBy_self, Option.toList_none, List.append_nil]
      have hrun := hruns.run
      obtain ⟨queued, hqueued⟩ : ∃ n, turn.next =
          [.control (.again todo { sum with queued := n })] := by
        rw [Action.run, ControlStep.run] at hrun
        split at hrun <;> obtain rfl := Option.some.inj hrun
        · exact ⟨_, rfl⟩
        · exact ⟨sum.queued, rfl⟩
      refine ⟨todo, { sum with queued := queued }, [], _, hthread, ?_,
        ⟨horder, hrequests, hsubmitted, hskipped⟩, hknown⟩
      rw [Thread.agenda_after hruns.agenda, hqueued]
      exact .again _ _
    | cons a' pre =>
      rw [List.cons_append] at hcons
      obtain ⟨rfl, hrest⟩ := List.cons.inj hcons
      have hkind := hpre a List.mem_cons_self
      have hhandled : s.handled? i m = none := by
        rw [handled?, hruns.ranBy_self]
        split
        · rw [Option.some.inj ‹some a = _›] at hkind
          cases hkind
        · rfl
      have hentered : s.entered? i m = none := by
        rw [entered?, hruns.ranBy_self]
        split
        · rw [Option.some.inj ‹some a = _›] at hkind
          cases hkind
        · rfl
      rw [hhandled, hentered, Option.toList_none, Option.toList_none, List.append_nil,
        List.append_nil]
      refine ⟨todo, sum, [], _, hthread, ?_, h.handled, hknown⟩
      rw [Thread.agenda_after hruns.agenda, hrest, ← List.append_assoc]
      refine .request fun a' ha' => ?_
      rcases List.mem_append.1 ha' with ha' | ha'
      · exact Action.Kind.ofRequest_of_brings (.inr hkind) (Action.brings_of_run hruns.run a' ha')
      · exact hpre a' (List.mem_cons_of_mem _ ha')

/-! ### A whole replay -/

/-- At any time after the beginning of a replay the thread is in the replay, and has handled the
first of the records, or it has handled all of them and has answered. -/
theorem replay_foldl (hs : s.Lawful) (h : InReplay s i rest ds [] [] todo sum owed th)
    (ms : List Move) :
    (∃ todo' sum' owed' th', InReplay (ms.foldl move s) i rest ds (s.gather (handled? i) ms)
      (s.gather (entered? i) ms) todo' sum' owed' th') ∨
    ∃ pre sum' th', pre <+: ms ∧ Answered (pre.foldl move s) i rest ds (s.gather (handled? i) pre)
      (s.gather (entered? i) pre) sum' th' := by
  induction ms using List.reverseRecOn with
  | nil => exact .inl ⟨todo, sum, owed, th, h⟩
  | append_singleton ms m ih =>
    rcases ih with ⟨todo', sum', owed', th', ih⟩ | ⟨pre, sum', th', hpre, ih⟩
    · rw [gather_concat, gather_concat, List.foldl_concat]
      have hl := hs.foldl ms
      cases hran : (ms.foldl move s).ranBy i m with
      | some a =>
        refine (ih.step hl hran).imp_right fun ⟨th', hanswer⟩ => ?_
        refine ⟨ms ++ [m], sum', th', List.prefix_rfl, ?_⟩
        rwa [gather_concat, gather_concat, List.foldl_concat]
      | none =>
        have hhandled : (ms.foldl move s).handled? i m = none := by rw [handled?, hran]
        have hentered : (ms.foldl move s).entered? i m = none := by rw [entered?, hran]
        rw [hhandled, hentered, Option.toList_none, Option.toList_none, List.append_nil,
          List.append_nil]
        exact .inl ⟨todo', sum', owed', th', thread_of_ranBy ih.thread hran, ih.agenda, ih.handled,
          fun d hd => (ih.known d hd).trans_le (size_methods_le hl m)⟩
    · exact .inr ⟨pre, sum', th', hpre.trans (List.prefix_append _ _), ih⟩

/-! ### The recorder of a broker -/

/-- A thread that is to close the window does so, if there is one, before it requests anything, and
is told so otherwise. -/
theorem replay_step {r : Recorder} (hr : s.broker.recorder = some r)
    (hth : s.threads[i]? = some th) (ha : th.agenda = .control .replay :: rest) (ch : Choices) :
    (r.window = none ∧ r.finish = .error .notRecording ∧
      ∃ s', s.step i ch = some s' ∧ s'.broker = s.broker ∧ s'.threads[i]? =
        some { th with agenda := rest, reply := some (.misused .notRecording) }) ∨
    ∃ ds, r.window = some ds ∧ r.finish = .ok (ds, {}) ∧
      ∃ s', s.step i ch = some s' ∧ s'.broker = { s.broker with recorder := some {} } ∧
        s'.threads[i]? = some { th with agenda := .control (.again ds {}) :: rest } := by
  have hself (turn : Turn)
      (hrun : (Action.control .replay).run (th.caller i) ch s.broker = some turn) :
      ∃ s', s.step i ch = some s' ∧ s'.broker = turn.broker ∧
        s'.threads[i]? = some (th.after turn) :=
    ⟨_, step_eq_some_iff.2 ⟨th, _, rest, turn, hth, ha, hrun, rfl⟩, rfl, threadsAfter_self hth⟩
  have hafter (turn : Turn) : th.after turn =
      { th with agenda := turn.next ++ rest, reply := turn.reply.or th.reply } := by
    rw [Thread.after, ha, List.drop_one, List.tail_cons]
  cases hw : r.window with
  | none =>
    have hfinish : r.finish = .error .notRecording := by rw [Recorder.finish, hw]
    obtain ⟨s', hstep, hb, hthread⟩ := hself {
        broker := s.broker, reply := some (.misused .notRecording) } (by
      simp only [Action.run, ControlStep.run, hr, hfinish]
      rfl)
    exact .inl ⟨rfl, hfinish, s', hstep, hb, hthread.trans (congrArg some (hafter _))⟩
  | some ds =>
    have hfinish : r.finish = .ok (ds, {}) := by rw [Recorder.finish, hw]
    obtain ⟨s', hstep, hb, hthread⟩ := hself {
        broker := { s.broker with recorder := some {} }, next := [.control (.again ds {})] } (by
      simp only [Action.run, ControlStep.run, hr, hfinish]
      rfl)
    refine .inr ⟨ds, rfl, hfinish, s', hstep, hb, hthread.trans (congrArg some (hafter _))⟩

/-- An operation that opens a window does so if there is none, and changes nothing otherwise. -/
theorem start_move {r : Recorder} (hl : s.Lawful) (hr : s.broker.recorder = some r)
    (hop : s.operation? m = some .startRecording) :
    (r.window ≠ none ∧ r.start = .error .alreadyRecording ∧ (s.move m).broker = s.broker) ∨
    (r.window = none ∧ r.start = .ok ⟨true, some []⟩ ∧
      (s.move m).broker = { s.broker with recorder := some ⟨true, some []⟩ }) := by
  rcases s.move_cases hl m with ⟨o, ho, hb⟩ | ⟨hnone, -⟩
  · obtain rfl := Option.some.inj (hop.symm.trans ho)
    rw [Broker.operate, hr, Option.map_some] at hb
    cases hw : r.window with
    | none =>
      have hstart : r.start = .ok ⟨true, some []⟩ := by rw [Recorder.start, hw]
      rw [hstart] at hb
      exact .inr ⟨rfl, hstart, hb⟩
    | some ds =>
      have hstart : r.start = .error .alreadyRecording := by rw [Recorder.start, hw]
      rw [hstart] at hb
      exact .inl ⟨Option.some_ne_none _, hstart, hb.trans (hr ▸ rfl)⟩
  · rw [hop] at hnone
    cases hnone

/-- The recorder agrees with the history in the state after a run, and misuse fails. -/
structure Recorded (first : System) (past : List Deed) (ms : List Move) (s : System) (r : Recorder) :
    Prop where
  /-- This is the recorder. -/
  recorder : s.broker.recorder = some r
  /-- A window is open that holds these records if and only if the history left it open. -/
  window : ∀ ds, r.window = some ds ↔ Deed.Opened (past ++ first.deeds ms) ds
  /-- No window is open if and only if the history left none. -/
  shut : r.window = none ↔ Deed.Shut (past ++ first.deeds ms)
  /-- The flag says so. -/
  recording : r.isRecording = r.window.isSome
  /-- The decompilations that detached code are those that were recorded, as far as a window was
  open, and those that are about to be. -/
  detached : (first.gather detached? ms : Multiset Decompilation) =
    (first.trace ms).filterMap Action.recorded? + s.pending.filterMap Action.recorded?
  /-- A window is opened if there is none, and nothing changes otherwise. -/
  start : ∀ {m : Move}, s.operation? m = some .startRecording →
    (r.window ≠ none ∧ r.start = .error .alreadyRecording ∧ (s.move m).broker = s.broker) ∨
    (r.window = none ∧ r.start = .ok ⟨true, some []⟩ ∧
      (s.move m).broker = { s.broker with recorder := some ⟨true, some []⟩ })
  /-- A window is closed by a replay if there is one, and nothing changes otherwise; from then on
  the thread handles the records, until it answers. -/
  replay : ∀ {i : ThreadId} {th : Thread} {rest : List Action}, s.threads[i]? = some th →
    th.agenda = .control .replay :: rest → ∀ ch : Choices,
    (r.window = none ∧ r.finish = .error .notRecording ∧
      ∃ s', s.step i ch = some s' ∧ s'.broker = s.broker ∧ s'.threads[i]? =
        some { th with agenda := rest, reply := some (.misused .notRecording) }) ∨
    ∃ ds, r.window = some ds ∧ r.finish = .ok (ds, {}) ∧
      ∃ s', s.step i ch = some s' ∧ s'.broker = { s.broker with recorder := some {} } ∧
        s'.threads[i]? = some { th with agenda := .control (.again ds {}) :: rest } ∧
        ((∀ d ∈ ds, d.method < s.broker.methods.size) → ∀ ms' : List Move,
          (∃ todo sum owed th', InReplay (ms'.foldl move s') i rest ds (s'.gather (handled? i) ms')
            (s'.gather (entered? i) ms') todo sum owed th') ∨
          ∃ pre sum th', pre <+: ms' ∧
            Answered (pre.foldl move s') i rest ds (s'.gather (handled? i) pre)
              (s'.gather (entered? i) pre) sum th' ∧
            sum.submitted + sum.skipped = ds.length)

/-- In every run of a broker with a recorder, whatever was done with the recorder before, the
recorder agrees with the history. -/
theorem recorder_of_run {b : Broker} {config : Config} {parts : Broker.Parts} {past : List Deed}
    (hb : Broker.assemble config parts = .ok b)
    (hrecorder : parts.recorder = some (past.foldl Recorder.after {})) (ms : List Move) :
    ∃ r, Recorded (launch b) past ms (ms.foldl move (launch b)) r := by
  have hfresh := lawful_launch (Broker.fresh_assemble hb)
  have hlawful := hfresh.foldl ms
  have hfirst : (launch b).broker.recorder = some (past.foldl Recorder.after {}) := by
    obtain ⟨units, -, rfl⟩ := Broker.exists_of_assemble hb
    exact hrecorder
  have hlast := recorder_foldl hfresh ms
  rw [hfirst, Option.map_some, ← List.foldl_append] at hlast
  have htells := Recorder.tells_foldl (past ++ (launch b).deeds ms)
  refine ⟨_, hlast, htells.window_iff, htells.shut_iff, htells.1, ?_,
    fun hop => start_move hlawful hlast hop, fun {i th rest} hth ha ch => ?_⟩
  · exact detached_eq_recorded rfl ms
  · refine (replay_step hlast hth ha ch).imp_right ?_
    rintro ⟨ds, hw, hfinish, s', hstep, hbroker, hthread⟩
    refine ⟨ds, hw, hfinish, s', hstep, hbroker, hthread, fun hknown ms' => ?_⟩
    have hin : InReplay s' i rest ds [] [] ds {} [] { th with agenda := .control (.again ds {}) :: rest } :=
      ⟨hthread, .again _ _, ⟨rfl, rfl, rfl, rfl⟩, fun d hd => by rw [hbroker]; exact hknown d hd⟩
    refine (replay_foldl (hlawful.step hstep) hin ms').imp_right ?_
    rintro ⟨pre, sum, th', hpre, hanswer⟩
    exact ⟨pre, sum, th', hpre, hanswer, hanswer.handled.total⟩

end System

namespace Broker

/-- What a small broker with a recorder is built from. -/
def Parts.taped : Parts := { Parts.solo with recorder := some {} }

/-- A small broker with a recorder. -/
def taped : Broker := (assemble .solo .taped).toOption.getD default

theorem assemble_taped : assemble .solo .taped = .ok taped := rfl

end Broker

namespace System

/-- Two decompilations of one method and one of another are recorded, the class of the latter is
unloaded, and a thread is to replay them. -/
def taping : List Move :=
  soloStart ++ [.operate (.addClass { name := "D" }),
    .operate (.addMethod { name := "g", className := "D", holder := 1 }),
    .operate .startRecording, .operate (.record ⟨0, 13, 1⟩), .operate (.record ⟨1, -1, 1⟩),
    .operate (.record ⟨0, 13, 1⟩), .operate (.unloadClass 1), .call .replay 0]

/-- There the window holds three records. The replay requests two of them, of which one is queued,
and leaves one out. -/
theorem recorder_of_taping : ∃ r, Recorded (launch .taped) [] taping
      (taping.foldl move (launch .taped)) r ∧
    r.window = some [⟨0, 13, 1⟩, ⟨1, -1, 1⟩, ⟨0, 13, 1⟩] ∧
    ((times 2 43).foldl move (taping.foldl move (launch .taped))).threads[2]?.bind (·.reply) =
      some (.replayed ⟨2, 1, 1⟩) := by
  obtain ⟨r, h⟩ := recorder_of_run Broker.assemble_taped
    (show Broker.Parts.taped.recorder = some (([] : List Deed).foldl Recorder.after {}) from rfl) taping
  have hr : (taping.foldl move (launch .taped)).broker.recorder =
      some ⟨true, some [⟨0, 13, 1⟩, ⟨1, -1, 1⟩, ⟨0, 13, 1⟩]⟩ := by decide +kernel
  obtain rfl := Option.some.inj (h.recorder.symm.trans hr)
  exact ⟨_, h, rfl, by decide +kernel⟩

end System

end JitBroker
