import JitBroker.Proofs.Books.Accounts
import JitBroker.Proofs.Numbers.Event

/-!
# Numbers and their window

In every run in which no sequence begins again (`System.numbered_of_run`):

* no two tasks, and no two events, have the same number of the same sequence;
* every task has a number in the window, so that there are no more tasks for a sequence than there
  are numbers in the window;
* a request whose number is outside of the window gets no task. Whatever other threads do meanwhile,
  it rules out its tier for its method and its kind of entry, gives the claim back, and is refused.
-/

namespace JitBroker

/-- Ruling out a tier rules out nothing else. -/
theorem Method.isProhibited_prohibit (m : Method) (osr : Bool) {tier : Tier} (h : tier < tierLimit)
    (osr' : Bool) (tier' : Tier) : (m.prohibit osr tier).isProhibited osr' tier' =
      (m.isProhibited osr' tier' || (osr' == osr && tier' == tier)) := by
  have hmark (s : TierSet) : (s.mark tier).has tier' = (s.has tier' || tier' == tier) := by
    rw [TierSet.has_mark]
    by_cases heq : tier = tier'
    · subst heq
      simp [h]
    · simp [heq, Ne.symm heq]
  cases osr <;> cases osr' <;> simp [prohibit, isProhibited, hmark]

/-- Numbers that may compile are in the window. -/
theorem Config.mem_of_allowsId {c : Config} {r : IdRange} (hr : c.idRange = some r) {id : UInt32}
    (h : c.allowsId id = true) : r.start.toNat ≤ id.toNat ∧ id.toNat < r.stop.toNat := by
  rw [allowsId, hr] at h
  simpa [IdRange.contains, UInt32.le_iff_toNat_le, UInt32.lt_iff_toNat_lt] using h

/-- There are no more numbers of a sequence than there are in the window. -/
theorem countP_le_of_window {ns : List Number} (hnodup : ns.Nodup) {start stop : Nat}
    (h : ∀ n ∈ ns, start ≤ n.2.toNat ∧ n.2.toNat < stop) (k : IdKind) :
    ns.countP (·.1 = k) ≤ stop - start := by
  have hids : ((ns.filter (·.1 = k)).map (·.2.toNat)).Nodup := by
    refine (hnodup.filter _).map_on fun n hn n' hn' heq => ?_
    have hkind {n : Number} (hn : n ∈ ns.filter (·.1 = k)) : n.1 = k := by
      simpa using (List.mem_filter.1 hn).2
    exact Prod.ext ((hkind hn).trans (hkind hn').symm) (UInt32.toNat_inj.1 heq)
  have hsub : (ns.filter (·.1 = k)).map (·.2.toNat) ⊆ List.range' start (stop - start) := by
    intro i hi
    obtain ⟨n, hn, rfl⟩ := List.mem_map.1 hi
    obtain ⟨hstart, hstop⟩ := h n (List.mem_of_mem_filter hn)
    rw [List.mem_range'_1]
    omega
  have hle := (List.subperm_of_subset hids hsub).length_le
  rwa [List.length_map, List.length_range', ← List.countP_eq_length_filter] at hle

namespace System

variable {s s' first : System} {ms : List Move} {i : ThreadId} {th : Thread} {rest : List Action}
  {q : Inquiry} {id : UInt32} {ch : Choices}

/-! ### Requests outside of the window -/

/-- A thread that makes none of the moves of a run has still before it what it had. -/
theorem thread_of_gather (hth : s.threads[i]? = some th) (hidle : s.gather (ranBy i) ms = []) :
    (ms.foldl move s).threads[i]? = some th := by
  induction ms generalizing s with
  | nil => exact hth
  | cons m ms ih =>
    rw [gather, List.append_eq_nil_iff] at hidle
    exact ih (thread_of_ranBy hth (Option.toList_eq_nil_iff.1 hidle.1)) hidle.2

/-- Whatever other threads do, the next step of a thread is as required. -/
def Next (s : System) (i : ThreadId) (p : System → System → Prop) : Prop :=
  ∀ (others : List Move) (ch : Choices), s.gather (ranBy i) others = [] →
    p (others.foldl move s) ((others.foldl move s).move (.step i ch))

/-- A request rules out its tier for its method and its kind of entry, and does nothing else. -/
structure Marks (s s' : System) (q : Inquiry) : Prop where
  /-- Only the marks of the method change. -/
  broker : s'.broker =
    s.broker.modifyMethod q.request.method (·.prohibit q.request.isOsr q.request.tier)
  /-- They change by this one. -/
  mark : ∃ x x', s.broker.methods[q.request.method]? = some x ∧
    s'.broker.methods[q.request.method]? = some x' ∧ ∀ osr tier, x'.isProhibited osr tier =
      (x.isProhibited osr tier || (osr == q.request.isOsr && tier == q.request.tier))

/-- A request leaves its queue and gives the claim on its method back, and does nothing else. -/
structure GivesBack (s s' : System) (q : Inquiry) : Prop where
  /-- Only the lock of the queue and the claim on the method change. -/
  broker : s'.broker = (RequestStep.unlock s.broker q).modifyMethod q.request.method
    fun x => { x with queued := false }
  /-- The method is not claimed then. -/
  free : ∃ x', s'.broker.methods[q.request.method]? = some x' ∧ x'.queued = false

/-- A request is turned away with a number in three steps, none of which makes a task. -/
structure TurnedAway (s : System) (i : ThreadId) (th : Thread) (rest : List Action) (q : Inquiry)
    (id : UInt32) (ch : Choices) : Prop where
  /-- The first one only draws the number. -/
  drawn : (s.move (.step i ch)).broker =
    (s.broker.drawId (s.broker.kindOf q.request.method q.request.isOsr)).2
  /-- The other ones follow, whatever happens meanwhile, and the thread goes on with what it had to do
  after the request, which was refused. -/
  refused : (s.move (.step i ch)).Next i fun s₁ s₂ => s₁.Marks s₂ q ∧
    s₂.Next i fun s₃ s₄ => s₃.GivesBack s₄ q ∧ s₄.threads[i]? = some { th with
      agenda := rest, reply := some (.outcome (.rejected (.prohibited (.outsideRange id)))) }

/-- What a request does that is turned away with a number. -/
theorem marks_of_exclude (hs : s.Lawful) (htier : q.request.tier < tierLimit)
    (hth : s.threads[i]? = some th) (ha : th.agenda = .request (.exclude q id) :: rest)
    (ch : Choices) : s.Marks (s.move (.step i ch)) q ∧
      (s.move (.step i ch)).threads[i]? = some { th with
        agenda := .request (.unclaim q (.prohibited (.outsideRange id))) :: rest } := by
  have h : s.Runs (.step i ch) i ch th _ rest _ := runs_of_run hth ha rfl
  obtain ⟨x, hx⟩ := hs.exists_method h.mem_pending rfl
  refine ⟨⟨congrArg System.broker h.turned, x, _, hx, ?_,
    fun osr tier => x.isProhibited_prohibit q.request.isOsr htier osr tier⟩, ?_⟩
  · rw [h.turned]
    exact Table.getElem?_modify_self hx _
  · rw [h.thread_after, Thread.after, ha]
    rfl

/-- What a request does that gives its claim back. -/
theorem givesBack_of_unclaim (hs : s.Lawful) {e : BrokerError} (hth : s.threads[i]? = some th)
    (ha : th.agenda = .request (.unclaim q e) :: rest) (ch : Choices) :
    s.GivesBack (s.move (.step i ch)) q ∧ (s.move (.step i ch)).threads[i]? = some { th with
      agenda := rest, reply := some (.outcome (.rejected e)) } := by
  have h : s.Runs (.step i ch) i ch th _ rest _ := runs_of_run hth ha rfl
  obtain ⟨x, hx⟩ := hs.exists_method h.mem_pending rfl
  refine ⟨⟨congrArg System.broker h.turned, { x with queued := false }, ?_, rfl⟩, ?_⟩
  · rw [h.turned]
    exact Table.getElem?_modify_self hx _
  · rw [h.thread_after, Thread.after, ha]
    rfl

/-- A request whose number may not compile is turned away. -/
theorem turnedAway (hs : s.Lawful) (htier : q.request.tier < tierLimit)
    (hth : s.threads[i]? = some th)
    (ha : th.agenda = .request (.number q) :: rest)
    (hid : id = (s.broker.drawId (s.broker.kindOf q.request.method q.request.isOsr)).1)
    (hout : s.broker.config.allowsId id = false) (ch : Choices) :
    s.TurnedAway i th rest q id ch := by
  obtain ⟨x, hx⟩ := hs.exists_method (mem_pending.2 ⟨i, th, hth, ha ▸ List.mem_cons_self⟩) rfl
  obtain ⟨turn, hrun⟩ : ∃ turn, (Action.request (.number q)).run (th.caller i) ch s.broker =
      some turn := by
    simp only [Action.run, RequestStep.run, hx]
    split <;> exact ⟨_, rfl⟩
  have h := runs_of_run hth ha hrun
  have hfirst := h.thread_after
  have hdrawn := congrArg System.broker h.turned
  obtain ⟨id', hid', rfl⟩ := h.number hs
  obtain rfl := hid.trans hid'.symm
  rw [hout, if_neg Bool.false_ne_true, Thread.after, ha] at hfirst
  refine ⟨hdrawn, fun others ch₁ hothers => ?_⟩
  have hs₁ := hs.foldl (.step i ch :: others)
  have hth₁ := thread_of_gather hfirst hothers
  obtain ⟨hmarks, hsecond⟩ := marks_of_exclude hs₁ htier hth₁ rfl ch₁
  refine ⟨hmarks, fun others' ch₂ hothers' => ?_⟩
  have hs₂ := hs₁.foldl (.step i ch₁ :: others')
  have hth₂ := thread_of_gather hsecond hothers'
  exact givesBack_of_unclaim hs₂ hth₂ rfl ch₂

/-! ### Every run -/

/-- The numbers after a run. -/
structure Numbered (first : System) (ms : List Move) (s : System) : Prop where
  /-- The last number of a sequence is how often it was drawn from. -/
  last : ∀ k, (s.broker.ids.last k).toNat = first.drawn ms k
  /-- No two tasks have the same number. -/
  tasks : s.taskNumbers.Nodup
  /-- No two events tell the same number. -/
  events : (s.broker.stats.events.toList.map s.broker.numberOf).Nodup
  /-- The numbers of tasks are in the window. -/
  window : ∀ r, s.broker.config.idRange = some r →
    ∀ n ∈ s.taskNumbers, r.start.toNat ≤ n.2.toNat ∧ n.2.toNat < r.stop.toNat
  /-- So there are no more tasks for a sequence than there are numbers in the window. -/
  few : ∀ r, s.broker.config.idRange = some r →
    ∀ k, s.taskNumbers.countP (·.1 = k) ≤ r.stop.toNat - r.start.toNat
  /-- Requests with other numbers are turned away. -/
  others : ∀ {i th rest q id}, s.threads[i]? = some th →
    th.agenda = .request (.number q) :: rest →
    id = (s.broker.drawId (s.broker.kindOf q.request.method q.request.isOsr)).1 →
    s.broker.config.allowsId id = false → ∀ ch, s.TurnedAway i th rest q id ch

/-- At first no number is drawn or borne, and no event is posted. -/
theorem unnumbered_launch {b : Broker} {config : Config} {parts : Broker.Parts}
    (hb : Broker.assemble config parts = .ok b) : (launch b).broker.ids = {} ∧
      (launch b).broker.stats.events = .empty ∧ (launch b).numbers = 0 := by
  obtain ⟨units, -, rfl⟩ := Broker.exists_of_assemble hb
  exact ⟨rfl, rfl, rfl⟩

/-- The tier of a request that has found its unit has a bit of its own. -/
theorem Reachable.tier_lt {b : Broker} {config : Config} {parts : Broker.Parts}
    (hb : Broker.assemble config parts = .ok b) (hr : Reachable (launch b) s) {a : Action}
    (ha : a ∈ s.pending) (hq : q ∈ a.inquiry?) : q.request.tier < tierLimit := by
  have hinquiry := (hr.tiered (Broker.fresh_assemble hb)).inquiry a ha q hq
  obtain ⟨x, hx, htier⟩ := Option.map_eq_some_iff.1 hinquiry
  have hconfig : s.broker.unitConfigs[q.unit]? = some x.config := by
    rw [Broker.unitConfigs, Table.getElem?_map, hx, Option.map_some]
  rw [hr.unitConfigs] at hconfig
  have hfault := Broker.fault_of_assemble hb _ (Table.mem_toList_iff.2 ⟨_, hconfig⟩)
  exact htier ▸ (TierConfig.of_fault_eq_none hfault).1

/-- In every run in which no sequence begins again, whatever requests are made and in whatever order,
numbers tell tasks apart, and so they do events, and all of them are in the window. -/
theorem numbered_of_run {b : Broker} {config : Config} {parts : Broker.Parts}
    (hb : Broker.assemble config parts = .ok b) (ms : List Move)
    (hfew : ∀ k, (launch b).drawn ms k < 2 ^ 32 - 1) :
    Numbered (launch b) ms (ms.foldl move (launch b)) := by
  have hs : (launch b).Lawful := lawful_launch (Broker.fresh_assemble hb)
  have hr : Reachable (launch b) (ms.foldl move (launch b)) := reachable_iff_foldl.2 ⟨ms, rfl⟩
  obtain ⟨hids, hevents, hnumbers⟩ := unnumbered_launch hb
  obtain ⟨hnodup, -⟩ := numbers_of_run hs hids hnumbers ms hfew
  have htasks : (ms.foldl move (launch b)).taskNumbers.Nodup :=
    Multiset.coe_nodup.1 (Multiset.nodup_of_le (Multiset.le_add_right _ _) hnodup)
  have hwindow : ∀ r, (ms.foldl move (launch b)).broker.config.idRange = some r →
      ∀ n ∈ (ms.foldl move (launch b)).taskNumbers,
        r.start.toNat ≤ n.2.toNat ∧ n.2.toNat < r.stop.toNat := by
    intro r hrange n hn
    have hallows := allows_of_run hs hnumbers ms n (Multiset.mem_add.2 (.inl hn))
    rw [← hr.config] at hallows
    exact Config.mem_of_allowsId hrange hallows
  refine ⟨fun k => ?_, htasks, numberOf_nodup (tells_announced hs hevents ms)
    (announced_nodup hs ms).1 htasks, hwindow,
    fun r hrange => countP_le_of_window htasks (hwindow r hrange),
    fun {i th rest q id} hth ha hid hout ch => ?_⟩
  · rw [last_of_run hs hids, UInt32.toNat_ofNat']
    exact Nat.mod_eq_of_lt ((hfew k).trans_le (Nat.sub_le _ _))
  · have hmem := mem_pending.2 ⟨i, th, hth, ha ▸ List.mem_cons_self⟩
    exact turnedAway (hs.foldl ms) (hr.tier_lt hb hmem rfl) hth ha hid hout ch

end System

/-! ### A window that the first number is not in -/

/-- A configuration with one tier, one worker, and a window of two numbers. -/
def Config.narrow : Config where
  dynamicPool := false
  tiers := [.solo]
  idRange := some ⟨2, 4⟩

namespace Broker

/-- A broker with a window of two numbers. -/
def narrow : Broker := (assemble .narrow .solo).toOption.getD default

theorem assemble_narrow : assemble .narrow .solo = .ok narrow := rfl

end Broker

namespace System

/-- Three methods are requested, and the worker compiles the second of them in vain. -/
def narrowThree : List Move :=
  soloStart ++ [.operate (.addMethod { name := "g", className := "C" }),
      .operate (.addMethod { name := "h", className := "C" })]
    ++ soloRequest 2 0 ++ soloRequest 3 1 ++ times 1 11
    ++ [.step 1 { move := some .finish }] ++ times 1 14 ++ soloRequest 4 2

/-- The first request is turned away with the number 1, and the others get the numbers that are
left. -/
theorem numbered_of_narrowThree :
    Numbered (launch .narrow) narrowThree (narrowThree.foldl move (launch .narrow)) ∧
      (narrowThree.foldl move (launch .narrow)).threads[2]?.bind (·.reply) =
        some (.outcome (.rejected (.prohibited (.outsideRange 1)))) ∧
      (narrowThree.foldl move (launch .narrow)).broker.methods.toList.map
        (·.isProhibited false 1) = [true, false, false] ∧
      (narrowThree.foldl move (launch .narrow)).taskNumbers = [(.standard, 2), (.standard, 3)] ∧
      (narrowThree.foldl move (launch .narrow)).broker.stats.events.toList.map
        (narrowThree.foldl move (launch .narrow)).broker.numberOf = [(.standard, 2)] := by
  have hfew : ∀ k, (launch .narrow).drawn narrowThree k < 2 ^ 32 - 1 := by
    intro k
    cases k <;> decide +kernel
  exact ⟨numbered_of_run Broker.assemble_narrow narrowThree hfew, by decide +kernel⟩

end System

end JitBroker
