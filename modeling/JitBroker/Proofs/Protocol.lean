import JitBroker.Proofs.Task.Custody

/-!
# What holds in every state

Three things hold in every state that a system gets into from its start, and each of them needs the
others to be preserved:

* the ledger is sound, and pending duties name what exists (`Ledger.Sound`, `Duty.Known`);
* the parts that threads have in each task add up (`Custody`);
* whoever is to write that a task is stale will complete it afterwards (`Duty.Written`).

Together they are `System.Lawful`. In a lawful system every step finds what it looks for
(`System.Lawful.ready`), so it is an event (`System.Lawful.shift`); and every event leads to a
lawful system again (`System.Reachable.lawful`).
-/

namespace JitBroker

/-! ### What comes after a duty -/

/-- Each duty in a list is followed by what it requires. -/
def Followed (F : Duty → List Duty → Prop) : List Duty → Prop
  | [] => True
  | d :: ds => F d ds ∧ Followed F ds

section Followed

variable {F : Duty → List Duty → Prop} {as bs : List Duty}

theorem Followed.append (hF : ∀ {d : Duty} {ds : List Duty}, F d ds → F d (ds ++ bs))
    (ha : Followed F as) (hb : Followed F bs) : Followed F (as ++ bs) := by
  induction as with
  | nil => exact hb
  | cons a as ih => exact ⟨hF ha.1, ih ha.2⟩

theorem Followed.of_append (h : Followed F (as ++ bs)) : Followed F bs := by
  induction as with
  | nil => exact h
  | cons a as ih => exact ih h.2

theorem followed_of_forall (h : ∀ d ∈ as, ∀ ds, F d ds) : Followed F as := by
  induction as with
  | nil => trivial
  | cons a as ih =>
    exact ⟨h a List.mem_cons_self _, ih fun d hd => h d (List.mem_cons_of_mem _ hd)⟩

end Followed

/-- Whoever is to write that a task is stale will complete it as stale afterwards. -/
def Duty.Written (d : Duty) (ds : List Duty) : Prop := ∀ t, d = .spoil t → .scrap t ∈ ds

theorem Duty.Written.append {d : Duty} {as : List Duty} (h : d.Written as) (bs : List Duty) :
    d.Written (as ++ bs) := fun t ht => List.mem_append_left bs (h t ht)

theorem followed_discard (ts : List TaskId) : Followed Duty.Written (ts.flatMap Duty.discard) := by
  induction ts with
  | nil => trivial
  | cons t ts ih =>
    refine Followed.append (fun h => h.append _) ⟨nofun, ?_, nofun, trivial⟩ ih
    rintro _ ⟨⟩
    exact List.mem_singleton_self _

/-- An event puts duties in the place of its own that are followed by what they require. -/
theorem Event.followed {l l' : Ledger} {d : Option Duty} {new rest : List Duty}
    {w : Option WorkerId} (h : Event l d new w l')
    (hf : Followed Duty.Written (d.toList ++ rest)) : Followed Duty.Written (new ++ rest) := by
  have hrest := hf.of_append
  have plain (h : ∀ d ∈ new, ∀ t, d ≠ .spoil t) : Followed Duty.Written (new ++ rest) :=
    Followed.append (fun h => h.append _)
      (followed_of_forall fun d hd _ t ht => absurd ht (h d hd t)) hrest
  have discard (ts : List TaskId) (ds : List Duty) (h : Followed Duty.Written (ds ++ rest)) :
      Followed Duty.Written (ts.flatMap Duty.discard ++ ds ++ rest) := by
    rw [List.append_assoc]
    exact Followed.append (fun h => h.append _) (followed_discard ts) h
  cases h with
  | plain d | know d => exact hf
  | @drain u st ts list tasks _ _ _ _ _ => simpa using discard ts [] hrest
  | fetch _ _ _ _ => exact discard _ _ ⟨nofun, hrest⟩
  | clean _ _ _ _ _ => exact discard _ _ ⟨nofun, hrest⟩
  | _ => exact plain (by grind)

/-! ### Lawful systems -/

namespace System

variable {s s' first : System} {i : ThreadId} {ch : Choices} {b : Broker}

/-- The records of the broker and what the threads have before them agree. -/
structure Lawful (s : System) : Prop where
  /-- The ledger is sound. -/
  sound : s.ledger.Sound
  /-- What duties name exists. -/
  known : ∀ d ∈ s.duties, d.Known s.ledger
  /-- The parts in each task add up. -/
  custody : Custody s.ledger s.duties
  /-- The reason of a stale task is written before the task is completed. -/
  written : ∀ {j : Nat} {t : Thread}, s.threads[j]? = some t →
    Followed Duty.Written (JitBroker.duties t.agenda)

/-- Where a task is to be found stale, it is to be completed as stale. -/
theorem scrap_mem_duties {k : TaskId} (hs : ∀ {j : Nat} {t : Thread}, s.threads[j]? = some t →
    Followed Duty.Written (JitBroker.duties t.agenda)) (h : Duty.spoil k ∈ s.duties) :
    Duty.scrap k ∈ s.duties := by
  obtain ⟨a, ha, hd⟩ := mem_duties.1 h
  obtain ⟨j, t, ht, ha⟩ := mem_pending.1 ha
  obtain ⟨as, bs, heq⟩ := List.append_of_mem (JitBroker.mem_duties.2 ⟨a, ha, hd⟩)
  have hwritten := hs ht
  rw [heq] at hwritten
  have hscrap : Duty.scrap k ∈ JitBroker.duties t.agenda :=
    heq ▸ List.mem_append_right _ (List.mem_cons_of_mem _ (hwritten.of_append.1 k rfl))
  obtain ⟨a', ha', hd'⟩ := JitBroker.mem_duties.1 hscrap
  exact mem_duties.2 ⟨a', mem_pending.2 ⟨j, t, ht, ha'⟩, hd'⟩

namespace Lawful

/-- In a lawful system the step of any duty finds what it looks for. -/
theorem ready (hs : s.Lawful) : ∀ d ∈ s.duties, d.Ready s.ledger := by
  intro d hd
  have hk := hs.known d hd
  have hpos {t : TaskId} {p : Part} (hp : d.part? t = some p) : 0 < share s.duties t p :=
    share_pos_iff.2 ⟨d, hd, hp⟩
  have fair {t : TaskId} (ht : t < s.ledger.tasks.size) :
      ∃ x, s.ledger.tasks[t]? = some x ∧ Fair x (s.ledger.queued t) (share s.duties t) := by
    obtain ⟨x, hx⟩ := Table.exists_getElem? ht
    exact ⟨x, hx, hs.custody t x hx⟩
  cases d with
  | bring u m t =>
    obtain ⟨hu, hm, x, hx, hxm⟩ := hk
    exact ⟨hu, hm, x, hx, hxm, (hs.custody t x hx).slot (hpos (by simp [Duty.part?]))⟩
  | free t =>
    obtain ⟨x, hx, hf⟩ := fair hk
    have hfree := hpos (p := .free) (t := t) (by simp [Duty.part?])
    have hcomplete : x.complete = true := by
      by_contra hopen
      have := (hf.before (by simpa using hopen)).1
      omega
    refine ⟨x, hx, hcomplete, ?_⟩
    have := hf.after hcomplete
    cases hfreed : x.freed with
    | false => rfl
    | true =>
      rw [hfreed, Bool.toNat_true] at this
      omega
  | scrap t =>
    obtain ⟨x, hx, hf⟩ := fair hk
    have hscrap := hpos (p := .scrap) (t := t) (by simp [Duty.part?])
    exact ⟨x, hx, by grind [hf.scrap]⟩
  | finish t =>
    obtain ⟨x, hx, hf⟩ := fair hk
    have hwork := hpos (p := .work) (t := t) (by simp [Duty.part?])
    exact ⟨x, hx, by grind [hf.keeper]⟩
  | spoil _ | wake _ | rouse => trivial
  | outside _ _ | desk _ _ _ | attend _ _ | sleep _ _ | unmark _ | drain _ | nudge _ | post _ _ =>
    exact hk

/-- In a lawful system every step is an event. -/
theorem shift (hs : s.Lawful) (h : s.step i ch = some s') :
    ∃ t a rest turn, s.threads[i]? = some t ∧ t.agenda = a :: rest ∧
      a.run (t.caller i) ch s.broker = some turn ∧ s' = s.turned i turn ∧
      Shift s.ledger s.duties a.duty? (JitBroker.duties turn.next) turn.hired s'.ledger s'.duties :=
  shift_of_step hs.sound hs.ready h

/-- The event of the step of a thread that is known to be at some action. -/
theorem shift_of (hs : s.Lawful) {t : Thread} {a : Action} {rest : List Action}
    (ht : s.threads[i]? = some t) (ha : t.agenda = a :: rest) (h : s.step i ch = some s') :
    ∃ turn, a.run (t.caller i) ch s.broker = some turn ∧ s' = s.turned i turn ∧
      Shift s.ledger s.duties a.duty? (JitBroker.duties turn.next) turn.hired s'.ledger
        s'.duties := by
  obtain ⟨_, _, _, turn, ht', ha', hrun, heq, hshift⟩ := hs.shift h
  obtain rfl := Option.some.inj (ht.symm.trans ht')
  obtain ⟨rfl, rfl⟩ := List.cons.inj (ha.symm.trans ha')
  exact ⟨turn, hrun, heq, hshift⟩

/-- A thread that is to complete a task as stale has written its reason, and nobody else is to. -/
theorem spoil_eq_zero (hs : s.Lawful) {t : Thread} {a : Action} {rest : List Action} {k : TaskId}
    (ht : s.threads[i]? = some t) (ha : t.agenda = a :: rest) (hd : a.duty? = some (.scrap k)) :
    share s.duties k .spoil = 0 := by
  have hsplit : s.duties = {Duty.scrap k} + (s.park i rest).duties := by
    rw [duties_park ht (show t.agenda = [a] ++ rest from ha), duties_cons, hd]
    rfl
  have hmem : Duty.scrap k ∈ s.duties := hsplit ▸ Multiset.mem_add.2 (.inl (by simp))
  obtain ⟨x, hx⟩ := Table.exists_getElem? (hs.known _ hmem)
  by_contra hspoil
  obtain ⟨d, hd', hpart⟩ := share_pos_iff.1 (Nat.pos_of_ne_zero hspoil)
  obtain rfl : d = .spoil k := by
    cases d <;> simp [Duty.part?] at hpart
    rw [hpart]
  -- Whoever is to write the reason is to complete the task as well, and so there are two.
  have hother : Duty.scrap k ∈ (s.park i rest).duties := by
    rw [hsplit, Multiset.mem_add, Multiset.mem_singleton] at hd'
    refine scrap_mem_duties (fun {j t'} ht' => ?_) (hd'.resolve_left (by simp))
    rcases getElem?_threads_park ht ht' with ⟨-, rfl⟩ | ⟨-, ht'⟩
    · have := hs.written ht
      rw [ha, duties_cons] at this
      exact this.of_append
    · exact hs.written ht'
  have htwo : 1 < share s.duties k .scrap := by
    rw [hsplit, share_add, share_singleton]
    have hpart : (Duty.scrap k).part? k = some .scrap := by simp [Duty.part?]
    have := share_pos_iff.2 ⟨_, hother, hpart⟩
    simp only [hpart, if_true]
    omega
  have := (hs.custody k x hx).scrap
  split at this <;> omega

/-- A lawful system makes a step to a lawful one. -/
theorem step (hs : s.Lawful) (h : s.step i ch = some s') : s'.Lawful := by
  obtain ⟨t, a, rest, turn, ht, ha, -, rfl, hshift⟩ := hs.shift h
  refine ⟨?_, hshift.known hs.sound hs.known, ?_, ?_⟩
  · exact hshift.event.sound hs.sound fun d hd => hs.known d (hshift.mem d hd)
  · exact hs.custody.shift hs.sound hs.known hshift fun k hk => hs.spoil_eq_zero ht ha hk
  · intro j t' ht'
    rcases threadsAfter_cases ht ht' with ⟨-, rfl⟩ | ⟨-, ht'⟩ | ⟨-, w, -, rfl⟩
    · rw [Thread.agenda_after ha, duties_append]
      refine hshift.event.followed ?_
      rw [← duties_cons, ← ha]
      exact hs.written ht
    · exact hs.written ht'
    · exact ⟨nofun, trivial⟩

theorem call (hs : s.Lawful) (c : Call) (n : Nat) : (s.call c n).Lawful := by
  obtain ⟨sound, known, custody, written⟩ := hs
  have hshift := s.shift_call c n
  refine ⟨hshift.event.sound sound nofun, hshift.known sound known,
    custody.shift sound known hshift nofun, fun {j t} ht => ?_⟩
  rcases thread_call_cases ht with hold | rfl
  · exact written hold
  · rw [JitBroker.duties_call]
    trivial

theorem operate (hs : s.Lawful) (o : Operation) : (s.operate o).Lawful := by
  obtain ⟨sound, known, custody, written⟩ := hs
  have hshift := s.shift_operate o
  exact ⟨hshift.event.sound sound nofun, hshift.known sound known,
    custody.shift sound known hshift nofun, written⟩

/-- In a lawful system every move is a shift; one that is not possible changes nothing. -/
theorem shift_move (hs : s.Lawful) (m : Move) : ∃ d new hired,
    Shift s.ledger s.duties d new hired (s.move m).ledger (s.move m).duties := by
  cases m with
  | call c n => exact ⟨_, _, _, s.shift_call c n⟩
  | operate o => exact ⟨_, _, _, s.shift_operate o⟩
  | step i ch =>
    cases h : s.step i ch with
    | none =>
      rw [System.move, h]
      exact ⟨none, [], none, .plain none, fun d hd => absurd hd (Option.not_mem_none d), rfl⟩
    | some s' =>
      obtain ⟨_, _, _, _, _, _, _, _, hshift⟩ := hs.shift h
      rw [System.move, h]
      exact ⟨_, _, _, hshift⟩

/-- A move takes nothing back. -/
theorem extends_move (hs : s.Lawful) (m : Move) : s.ledger.Extends (s.move m).ledger := by
  obtain ⟨_, _, _, hshift⟩ := hs.shift_move m
  exact hshift.event.extends

/-- Every move leads to a lawful system. -/
theorem move (hs : s.Lawful) (m : Move) : (s.move m).Lawful := by
  cases m with
  | call c n => exact hs.call c n
  | operate o => exact hs.operate o
  | step i ch =>
    cases h : s.step i ch with
    | none => simpa [System.move, h] using hs
    | some s' => simpa [System.move, h] using hs.step h

/-- So does every run. -/
theorem foldl (hs : s.Lawful) (ms : List Move) : (ms.foldl System.move s).Lawful := by
  induction ms generalizing s with
  | nil => exact hs
  | cons m ms ih => exact ih (hs.move m)

/-- A run takes nothing back. -/
theorem extends_foldl (hs : s.Lawful) (ms : List Move) :
    s.ledger.Extends (ms.foldl System.move s).ledger := by
  induction ms generalizing s with
  | nil => exact .refl _
  | cons m ms ih => exact (hs.extends_move m).trans (ih (hs.move m))

end Lawful

/-! ### The start -/

end System

/-- A broker that has just been assembled. -/
structure Broker.Fresh (b : Broker) : Prop where
  /-- There is no task. -/
  tasks : b.tasks = .empty
  /-- There is no worker. -/
  workers : b.workers = .empty
  /-- The queues are empty and free, and there are no crews. -/
  unit : ∀ x ∈ b.units.toList, x.queue.list = .empty ∧ x.queue.lock = none ∧ x.crew.live = []
  /-- Compilation is not disabled. -/
  disabled : b.disabled = false

namespace Broker

theorem mem_insertUnit {x y : TierUnit} {l : List TierUnit} :
    y ∈ insertUnit x l ↔ y = x ∨ y ∈ l := by
  induction l with
  | nil => simp [insertUnit]
  | cons z l ih =>
    rw [insertUnit]
    split <;> simp [ih, or_left_comm]

theorem mem_foldl_insertUnit {y : TierUnit} {xs l : List TierUnit} :
    y ∈ xs.foldl (fun sorted x => insertUnit x sorted) l ↔ y ∈ xs ∨ y ∈ l := by
  induction xs generalizing l with
  | nil => simp
  | cons x xs ih => rw [List.foldl_cons, ih, mem_insertUnit, List.mem_cons, or_assoc, or_left_comm]

/-- The results for a list are results for its members. -/
theorem exists_of_mapM {α β ε : Type} {f : α → Except ε β} :
    ∀ {as : List α} {bs : List β}, as.mapM f = .ok bs → ∀ b ∈ bs, ∃ a ∈ as, f a = .ok b
  | [], bs, h => by
    obtain rfl : [] = bs := by simpa [pure, Except.pure] using h
    exact fun _ h => absurd h (List.not_mem_nil)
  | a :: as, bs, h => by
    rw [List.mapM_cons] at h
    cases ha : f a with
    | error e => simp [ha, bind, Except.bind] at h
    | ok b =>
      cases has : as.mapM f with
      | error e => simp [ha, has, bind, Except.bind] at h
      | ok bs' =>
        obtain rfl : b :: bs' = bs := by simpa [ha, has, bind, Except.bind, pure, Except.pure] using h
        refine List.forall_mem_cons.2 ⟨⟨a, List.mem_cons_self, ha⟩, fun b' hb' => ?_⟩
        obtain ⟨a', ha', h'⟩ := exists_of_mapM has b' hb'
        exact ⟨a', List.mem_cons_of_mem _ ha', h'⟩

/-- What the unit of a tier is. -/
theorem exists_of_makeUnit {parts : Parts} {t : TierConfig} {x : TierUnit}
    (h : makeUnit parts t = .ok x) :
    ∃ kind, x = { config := t, kind := kind, queue := .forTier t parts.selector } := by
  rw [makeUnit] at h
  split at h
  · exact ⟨_, (Except.ok.inj h).symm⟩
  · cases h

/-- What assembling makes. -/
theorem exists_of_assemble {b : Broker} {config : Config} {parts : Parts}
    (h : assemble config parts = .ok b) :
    ∃ units, config.enabledTiers.mapM (makeUnit parts) = .ok units ∧
      b = {
        config := config
        units := ⟨(units.foldl (fun sorted x => insertUnit x sorted) []).toArray⟩
        pool := { capacity := config.maxLiveTasks }
        cache := parts.cache
        directives := parts.directives
        recorder := parts.recorder
        jobs := if config.acceptDefault then .run else .stopped
        freeMemory := parts.freeMemory } := by
  rw [assemble] at h
  split at h
  · cases h
  · cases hunits : config.enabledTiers.mapM (makeUnit parts) with
    | error e => simp [hunits, bind, Except.bind] at h
    | ok units =>
      rw [hunits] at h
      exact ⟨units, rfl, (Except.ok.inj h).symm⟩

/-- Only from a configuration without faults. -/
theorem validate_of_assemble {b : Broker} {config : Config} {parts : Parts}
    (h : assemble config parts = .ok b) : config.validate = .ok () := by
  rw [assemble] at h
  split at h
  · cases h
  · assumption

/-- Every unit is new, and that of an enabled tier. -/
theorem unit_of_assemble {b : Broker} {config : Config} {parts : Parts}
    (h : assemble config parts = .ok b) : ∀ x ∈ b.units.toList, ∃ t ∈ config.enabledTiers,
      ∃ kind, x = { config := t, kind := kind, queue := .forTier t parts.selector } := by
  obtain ⟨units, hunits, rfl⟩ := exists_of_assemble h
  intro x hx
  have hx : x ∈ units := by simpa [Table.toList, mem_foldl_insertUnit] using hx
  obtain ⟨t, ht, hmake⟩ := exists_of_mapM hunits x hx
  exact ⟨t, ht, exists_of_makeUnit hmake⟩

/-- Every unit begins with a new queue. -/
theorem queue_of_assemble {b : Broker} {config : Config} {parts : Parts}
    (h : assemble config parts = .ok b) :
    ∀ x ∈ b.units.toList, ∃ tier, x.queue = .forTier tier parts.selector := by
  intro x hx
  obtain ⟨t, -, kind, rfl⟩ := unit_of_assemble h x hx
  exact ⟨t, rfl⟩

/-- Assembling makes a fresh broker. -/
theorem fresh_assemble {b : Broker} {config : Config} {parts : Parts}
    (h : assemble config parts = .ok b) : b.Fresh := by
  have hunit (x : TierUnit) (hx : x ∈ b.units.toList) :
      x.queue.list = .empty ∧ x.queue.lock = none ∧ x.crew.live = [] := by
    obtain ⟨t, -, kind, rfl⟩ := unit_of_assemble h x hx
    exact ⟨rfl, rfl, rfl⟩
  obtain ⟨units, -, rfl⟩ := exists_of_assemble h
  exact ⟨rfl, rfl, hunit, rfl⟩

theorem Fresh.stock {b : Broker} (hb : b.Fresh) {u : Nat} {st : Stock}
    (hst : b.ledger.stocks[u]? = some st) : st.list = .empty ∧ st.locked = false := by
  rw [getElem?_stocks] at hst
  obtain ⟨unit, hunit, rfl⟩ := Option.map_eq_some_iff.1 hst
  obtain ⟨hlist, hlock, -⟩ := hb.unit unit (Table.mem_toList_iff.2 ⟨u, hunit⟩)
  exact ⟨hlist, by simp [CompileQueue.isFree, hlock]⟩

theorem Fresh.crew {b : Broker} (hb : b.Fresh) {u : Nat} {ws : List WorkerId}
    (hws : b.ledger.crews[u]? = some ws) : ws = [] := by
  rw [getElem?_crews] at hws
  obtain ⟨unit, hunit, rfl⟩ := Option.map_eq_some_iff.1 hws
  exact (hb.unit unit (Table.mem_toList_iff.2 ⟨u, hunit⟩)).2.2

end Broker

namespace System

variable {s first : System} {b : Broker}

@[simp] theorem duties_launch (b : Broker) : (launch b).duties = 0 := rfl

@[simp] theorem ledger_launch (b : Broker) : (launch b).ledger = b.ledger := rfl

/-- A system starts lawful. -/
theorem lawful_launch (hb : b.Fresh) : (launch b).Lawful := by
  have htask {t : Nat} {x : Task} (hx : b.ledger.tasks[t]? = some x) : False := by
    simp [Broker.tasks_ledger, hb.tasks] at hx
  refine ⟨⟨fun hst => ?_, fun hst t ht => ?_, fun hx => (htask hx).elim, fun {w p} hp => ?_,
    ?_, fun hws w hw => ?_⟩, ?_, ?_, fun {j t} ht => ?_⟩
  · exact ⟨[], (hb.stock hst).1 ▸ TaskList.Holds.empty⟩
  · rw [(hb.stock hst).1, TaskList.Holds.empty.toList_eq] at ht
    exact absurd ht List.not_mem_nil
  · rw [ledger_launch, Broker.getElem?_posts, hb.workers] at hp
    simp at hp
  · rw [ledger_launch, Broker.ledger, Table.size_map, Table.size_map]
  · rw [hb.crew hws] at hw
    exact absurd hw List.not_mem_nil
  · simp
  · exact fun t x hx => (htask hx).elim
  · rw [agenda_launch ht]
    trivial

/-- Every state that a system can get into is lawful. -/
theorem Reachable.lawful (hb : b.Fresh) (h : Reachable (launch b) s) : s.Lawful :=
  h.invariant (lawful_launch hb) (fun _ hs hstep => hs.step hstep) (fun c n _ hs => hs.call c n)
    (fun o _ hs => hs.operate o)

end System

/-! ### A small broker -/

/-- A tier with one worker. -/
def TierConfig.solo : TierConfig where
  level := 1
  compiler := .c1
  enabled := true
  maxWorkers := 1
  minWorkers := 1
  tasksPerThread := 1
  memoryBudget := 1
  codeBudget := 1
  retireIdleMs := 1
  blobKind := .profiled
  bufferSize := 0

/-- A configuration with one tier and one worker. -/
def Config.solo : Config where
  dynamicPool := false
  tiers := [.solo]

namespace Broker

/-- What a small broker is built from. -/
def Parts.solo : Parts where
  backends := [(1, .c1)]
  freeMemory := 1

/-- A broker with one tier and one worker. -/
def solo : Broker := (assemble .solo .solo).toOption.getD default

theorem assemble_solo : assemble .solo .solo = .ok solo := rfl

end Broker

namespace System

/-- Steps of one thread, with nothing chosen in them. -/
def times (i : ThreadId) (n : Nat) : List Move := List.replicate n (.step i {})

/-- The small broker starts, its worker goes to look for work, and a method becomes known. -/
def soloStart : List Move :=
  times 0 5 ++ [.step 1 {}, .step 1 { started := some (.ok ()) },
    .operate (.addClass { name := "C" }), .operate (.addMethod { name := "f", className := "C" })]

end System

end JitBroker
