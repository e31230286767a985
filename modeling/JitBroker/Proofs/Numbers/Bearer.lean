import JitBroker.Proofs.Numbers.Draw
import JitBroker.Proofs.Rest.Start

/-!
# Who bears a number

A number that was drawn is with the request that drew it, until the request gets a task, and with the
task from then on; or it is lost. So the numbers that requests and tasks bear come from draws, each
from one of its own (`System.numbers_move`). As long as a sequence does not begin again, no draw
gives a number that was given before, and no two tasks have the same number of the same sequence
(`System.numbers_of_run`).
-/

namespace JitBroker

/-- A number of a sequence. -/
abbrev Number := IdKind × UInt32

namespace Broker

/-- The number of a task. -/
def number (b : Broker) (x : Task) : Number := (b.kindOf x.method x.isOsr, x.compileId)

end Broker

/-- The number with which a request is to get a task. -/
def Action.number? (b : Broker) : Action → Option Number
  | .request (.allocate q id) => some (b.kindOf q.request.method q.request.isOsr, id)
  | _ => none

variable {me : Caller} {ch : Choices} {b : Broker} {turn : Turn}

namespace RequestStep

variable {s : RequestStep} {q q' : Inquiry} {t : TaskId} {x : Task} {id : UInt32}

theorem leave_ne_allocate {gaveUp : Bool} (h : leave b q t x gaveUp = some turn) :
    .request (.allocate q' id) ∉ turn.next := by
  unfold leave at h
  split at h <;> obtain rfl := Option.some.inj h <;> simp

/-- A request is to get a task after it has drawn a number. -/
theorem eq_number_of_allocate (h : s.run me ch b = some turn)
    (ha : .request (.allocate q' id) ∈ turn.next) : ∃ q, s = .number q := by
  cases s with
  | number q => exact ⟨q, rfl⟩
  | asleep q t bell watch =>
    rw [run] at h
    repeat' split at h
    · obtain rfl := Option.some.inj h
      simp at ha
    · unfold wakeUp at h
      repeat' split at h
      all_goals first
        | exact absurd ha (leave_ne_allocate h)
        | (obtain rfl := Option.some.inj h
           simp at ha)
    · cases h
  | _ =>
    rw [run] at h
    (try simp only at h)
    repeat' split at h
    all_goals first
      | exact absurd ha (leave_ne_allocate h)
      | (obtain rfl := Option.some.inj h
         simp at ha)
      | cases h

end RequestStep

namespace System

variable {s first : System} {m : Move} {ms : List Move} {i : ThreadId} {ch : Choices} {th : Thread}
  {a : Action} {rest : List Action} {turn : Turn} {q : Inquiry} {id : UInt32}

/-! ### Tasks that are made -/

/-- A task is made by a request that has a number, and by nothing else. -/
theorem size_tasks_move (hs : s.Lawful) (m : Move) :
    (s.move m).broker.tasks.size = s.broker.tasks.size ∨
      ∃ q id, s.ran m = some (.request (.allocate q id)) := by
  cases hran : s.ran m with
  | none =>
    left
    cases m with
    | call c n => rfl
    | operate o =>
      rcases s.broker.ledger_operate o with h | h <;>
        exact congrArg Table.size (congrArg Ledger.tasks h :)
    | step i ch => rw [move_step_of_ran hran]
  | some a =>
    obtain ⟨i, ch, th, rest, turn, h⟩ := exists_runs hran
    have hb := congrArg System.broker h.turned
    have hrun := h.run
    rw [hb, broker_turned]
    have hevent := Action.event hs.sound (fun d hd => hs.ready d (mem_duties.2 ⟨a, h.mem_pending, hd⟩))
      h.run
    rcases hevent.size_tasks with hsame | ⟨u, n, hd⟩
    · exact .inl hsame
    · cases a with
      | request st =>
        cases st with
        | allocate q id => exact .inr ⟨q, id, rfl⟩
        | number q =>
          obtain ⟨id, -, rfl⟩ := h.number hs
          exact .inl rfl
        | exclude q id | unclaim q e =>
          obtain rfl := Option.some.inj hrun
          exact .inl rfl
        | _ => cases hd
      | task st =>
        cases st with
        | complete t who => cases who <;> cases hd
        | _ => cases hd
      | control st => cases st <;> cases hd
      | _ => cases hd

/-- What a request does that is to get a task. -/
theorem Runs.allocate (h : s.Runs m i ch th (.request (.allocate q id)) rest turn) :
    (∃ e, turn = { broker := s.broker, next := [.request (.unclaim q e)] }) ∨
      ∃ pool, turn = {
        broker := { s.broker with
          pool := pool
          tasks := s.broker.tasks.add (Task.ofRequest q.request id q.blocking s.broker.clock) }
        next := [.request (.stamp q s.broker.tasks.size)] } := by
  have hrun := h.run
  rw [Action.run, RequestStep.run] at hrun
  split at hrun
  · exact .inl ⟨_, (Option.some.inj hrun).symm⟩
  · exact .inr ⟨_, (Option.some.inj hrun).symm⟩

/-! ### Numbers that are borne -/

/-- The numbers of all tasks there ever were. -/
def taskNumbers (s : System) : List Number := s.broker.tasks.toList.map s.broker.number

/-- The numbers of tasks, and of requests that are to get one. -/
def numbers (s : System) : Multiset Number :=
  ↑s.taskNumbers + s.pending.filterMap (Action.number? s.broker)

/-- The number of a task stays. -/
theorem number_move (hs : s.Lawful) (m : Move) {t : TaskId} {x : Task}
    (hx : s.broker.tasks[t]? = some x) :
    ∃ x', (s.move m).broker.tasks[t]? = some x' ∧ x.Evolves x' ∧
      (s.move m).broker.number x' = s.broker.number x := by
  obtain ⟨x', hx', hev⟩ := (hs.extends_move m).task hx
  have hmethod : x.method < s.broker.methods.size := by
    simpa [ledger, Broker.ledger] using hs.sound.method hx
  refine ⟨x', hx', hev, ?_⟩
  rw [Broker.number, Broker.number, hev.method, hev.compileId, Task.isOsr, hev.entryBci,
    kindOf_move hs m hmethod, Task.isOsr]

/-- If no task is made, the numbers of tasks are the same. -/
theorem taskNumbers_move (hs : s.Lawful) (m : Move)
    (hsize : (s.move m).broker.tasks.size = s.broker.tasks.size) :
    (s.move m).taskNumbers = s.taskNumbers := by
  refine List.ext_getElem? fun t => ?_
  rw [taskNumbers, taskNumbers, List.getElem?_map, List.getElem?_map, Table.toList_getElem?,
    Table.toList_getElem?]
  cases hx : s.broker.tasks[t]? with
  | none =>
    rw [Table.getElem?_eq_none_iff, ← hsize, ← Table.getElem?_eq_none_iff] at hx
    rw [hx]
    rfl
  | some x =>
    obtain ⟨x', hx', -, hnumber⟩ := number_move hs m hx
    rw [hx', Option.map_some, Option.map_some, hnumber]

/-- The number of a request that is to get a task stays. -/
theorem filterMap_number_move (hs : s.Lawful) (m : Move) {others : Multiset Action}
    (hothers : others ≤ s.pending) :
    others.filterMap (Action.number? (s.move m).broker) =
      others.filterMap (Action.number? s.broker) := by
  obtain ⟨as, rfl⟩ := Quot.exists_rep others
  refine congrArg _ (List.filterMap_congr fun a ha => ?_)
  unfold Action.number?
  split
  · rename_i q id
    obtain ⟨x, hx⟩ := hs.exists_method (Multiset.mem_of_le hothers ha) rfl
    rw [kindOf_move hs m (Table.lt_size_of_getElem? hx)]
  · rfl

/-- The number that a move draws, if it may compile. -/
def granted? (s : System) (m : Move) : Option Number :=
  ((s.draws? m).map fun k => (k, (s.broker.drawId k).1)).filter fun n => s.broker.config.allowsId n.2

theorem granted_eq_some_iff {n : Number} : s.granted? m = some n ↔
    s.draws? m = some n.1 ∧ n.2 = (s.broker.drawId n.1).1 ∧
      s.broker.config.allowsId n.2 = true := by
  rw [granted?, Option.filter_eq_some_iff, Option.map_eq_some_iff]
  constructor
  · rintro ⟨⟨k, hk, rfl⟩, hallows⟩
    exact ⟨hk, rfl, hallows⟩
  · rintro ⟨hk, hid, hallows⟩
    exact ⟨⟨_, hk, Prod.ext rfl hid.symm⟩, hallows⟩

theorem Runs.draws (h : s.Runs m i ch th (.request (.number q)) rest turn) :
    s.draws? m = some (s.broker.kindOf q.request.method q.request.isOsr) := by
  have hop : s.operation? m = none := by
    rw [h.move, operation?, ← h.move, h.ran]
  rw [draws?, hop, h.ran]

/-- Only a request that has drawn a number is to get a task with it. -/
theorem Runs.eq_number_of_allocate (h : s.Runs m i ch th a rest turn)
    (ha : .request (.allocate q id) ∈ turn.brings) : ∃ q, a = .request (.number q) := by
  have hnext : .request (.allocate q id) ∈ turn.next :=
    (List.mem_append.1 ha).resolve_right fun hhired => by
      obtain ⟨w, -, heq⟩ := List.mem_map.1 hhired
      cases heq
  obtain ⟨st, rfl⟩ := Action.exists_request_of_brings (Action.brings_of_run h.run _ hnext)
  obtain ⟨q, rfl⟩ := RequestStep.eq_number_of_allocate h.run hnext
  exact ⟨q, rfl⟩

/-- What a move brings bears no number, but for a request that has drawn one. -/
theorem Brings.number {new : List Action} (hs : s.Lawful) (h : s.Brings m new) :
    (new.filterMap (Action.number? (s.move m).broker) : Multiset Number) ≤
      ↑(s.granted? m).toList := by
  have none (hnot : ∀ q id, .request (.allocate q id) ∉ new) :
      (new.filterMap (Action.number? (s.move m).broker) : Multiset Number) ≤
        ↑(s.granted? m).toList := by
    have hnil : new.filterMap (Action.number? (s.move m).broker) = [] := by
      refine List.filterMap_eq_nil_iff.2 fun a ha => ?_
      unfold Action.number?
      split
      · exact absurd ha (hnot _ _)
      · rfl
    rw [hnil]
    exact Multiset.zero_le _
  cases h with
  | call _ =>
    refine none fun q id ha => ?_
    have hkind := Call.kind_of_mem ha
    simp [Action.kind] at hkind
  | nothing _ => exact none fun q id => List.not_mem_nil
  | @step i ch th a rest turn h =>
    by_cases hnumber : ∃ q, a = .request (.number q)
    · obtain ⟨q, rfl⟩ := hnumber
      obtain ⟨id, hid, rfl⟩ := h.number hs
      rw [h.turned, Turn.brings]
      split
      · rename_i hallows
        have hgranted := granted_eq_some_iff.2
          (show s.draws? m = some (s.broker.kindOf q.request.method q.request.isOsr, id).1 ∧ _ from
            ⟨h.draws, hid, hallows⟩)
        rw [hgranted]
        exact le_rfl
      · exact Multiset.zero_le _
    · exact none fun q id ha => hnumber (h.eq_number_of_allocate ha)

/-- The numbers that are borne after a move were borne before it, or one of them is drawn. -/
theorem numbers_move (hs : s.Lawful) (m : Move) :
    (s.move m).numbers ≤ s.numbers + ↑(s.granted? m).toList := by
  obtain ⟨others, new, hnew, hpending, hmove⟩ := s.exists_pending_move m
  have hothers : others ≤ s.pending := hpending ▸ Multiset.le_add_right _ _
  rw [numbers, numbers, hmove, Multiset.filterMap_add, filterMap_number_move hs m hothers, hpending,
    Multiset.filterMap_add]
  have hbrought := hnew.number hs
  rw [Multiset.filterMap_coe, Multiset.filterMap_coe]
  by_cases hsize : (s.move m).broker.tasks.size = s.broker.tasks.size
  · rw [taskNumbers_move hs m hsize, ← add_assoc, ← add_assoc]
    exact add_le_add (Multiset.le_add_right _ _) hbrought
  · obtain ⟨q, id, hran⟩ := (size_tasks_move hs m).resolve_left hsize
    obtain ⟨i, ch, th, rest, turn, h⟩ := exists_runs hran
    rcases h.allocate with ⟨e, rfl⟩ | ⟨pool, rfl⟩
    · exact absurd (by rw [h.turned]; rfl) hsize
    · -- The number of the request becomes that of its task.
      have htasks : (s.move m).taskNumbers = s.taskNumbers ++
          [(s.broker.kindOf q.request.method q.request.isOsr, id)] := by
        rw [h.turned, taskNumbers, broker_turned, Table.toList_add, List.map_append]
        rfl
      rw [htasks, hran, ← Multiset.coe_add, add_assoc, add_assoc]
      refine add_le_add le_rfl ?_
      rw [← add_assoc, add_comm (Multiset.ofList _) (others.filterMap _)]
      exact add_le_add le_rfl hbrought

/-! ### Runs in which no sequence begins again -/

/-- As long as a sequence does not begin again, its next number is how often it was drawn from, with
this time. -/
theorem toNat_drawId (hs : first.Lawful) (hids : first.broker.ids = {}) (ms : List Move)
    {k : IdKind} (hfew : first.drawn ms k < 2 ^ 32 - 1) :
    ((ms.foldl move first).broker.drawId k).1.toNat = first.drawn ms k + 1 := by
  rw [Broker.drawId, IdCounters.fst_draw, last_of_run hs hids, UInt32.toNat_add, UInt32.toNat_ofNat',
    UInt32.toNat_one]
  omega

/-- No number is borne twice, and each is one of those that were drawn. -/
theorem numbers_of_run (hs : first.Lawful) (hids : first.broker.ids = {})
    (hnumbers : first.numbers = 0) (ms : List Move) (hfew : ∀ k, first.drawn ms k < 2 ^ 32 - 1) :
    (ms.foldl move first).numbers.Nodup ∧
      ∀ n ∈ (ms.foldl move first).numbers, 1 ≤ n.2.toNat ∧ n.2.toNat ≤ first.drawn ms n.1 := by
  induction ms using List.reverseRecOn with
  | nil =>
    rw [List.foldl_nil, hnumbers]
    exact ⟨Multiset.nodup_zero, fun n hn => absurd hn (Multiset.notMem_zero n)⟩
  | append_singleton ms m ih =>
    have hbefore (k : IdKind) : first.drawn ms k < 2 ^ 32 - 1 :=
      (drawn_le_concat first ms m k).trans_lt (hfew k)
    obtain ⟨hnodup, hbound⟩ := ih hbefore
    have hmove := numbers_move (hs.foldl ms) m
    have hold {n : Number} (hn : n ∈ (ms.foldl move first).numbers) :
        1 ≤ n.2.toNat ∧ n.2.toNat ≤ first.drawn (ms ++ [m]) n.1 :=
      ⟨(hbound n hn).1, (hbound n hn).2.trans (drawn_le_concat first ms m n.1)⟩
    rw [List.foldl_concat]
    cases hgranted : (ms.foldl move first).granted? m with
    | none =>
      rw [hgranted] at hmove
      have hmove : ((ms.foldl move first).move m).numbers ≤ (ms.foldl move first).numbers :=
        hmove.trans_eq (add_zero _)
      exact ⟨Multiset.nodup_of_le hmove hnodup, fun n hn => hold (Multiset.mem_of_le hmove hn)⟩
    | some n =>
      obtain ⟨hdraws, hid, -⟩ := granted_eq_some_iff.1 hgranted
      rw [hgranted, Option.toList_some, Multiset.coe_singleton, add_comm,
        Multiset.singleton_add] at hmove
      rw [← UInt32.toNat_inj, toNat_drawId hs hids ms (hbefore n.1)] at hid
      have hdrawn := drawn_concat first ms m n.1
      rw [if_pos hdraws] at hdrawn
      refine ⟨Multiset.nodup_of_le hmove (Multiset.nodup_cons.2 ⟨fun hmem => ?_, hnodup⟩),
        fun n' hn' => ?_⟩
      · have hle := (hbound n hmem).2
        omega
      · rcases Multiset.mem_cons.1 (Multiset.mem_of_le hmove hn') with rfl | hn'
        · omega
        · exact hold hn'

/-- Every number that is borne may compile. -/
theorem allows_of_run (hs : first.Lawful) (hnumbers : first.numbers = 0) (ms : List Move) :
    ∀ n ∈ (ms.foldl move first).numbers, first.broker.config.allowsId n.2 = true := by
  induction ms using List.reverseRecOn with
  | nil =>
    rw [List.foldl_nil, hnumbers]
    exact fun n hn => absurd hn (Multiset.notMem_zero n)
  | append_singleton ms m ih =>
    have hr : Reachable first (ms.foldl move first) := reachable_iff_foldl.2 ⟨ms, rfl⟩
    rw [List.foldl_concat]
    intro n hn
    have hmem := Multiset.mem_of_le (numbers_move (hs.foldl ms) m) hn
    rcases Multiset.mem_add.1 hmem with hold | hnew
    · exact ih n hold
    · obtain ⟨-, -, hallows⟩ := granted_eq_some_iff.1 (Option.mem_toList.1 hnew)
      rwa [hr.config] at hallows

end System

end JitBroker
