import Mathlib.Data.List.Induction
import JitBroker.Proofs.Fittings
import JitBroker.Proofs.Kinds

/-!
# Drawing numbers

A number is drawn by a request that has claimed its method, whatever becomes of the request, and by
whoever asks for one from outside. Nothing else counts: the last number of a sequence is how often
it was drawn from, as long as that is a number of 32 bits (`System.last_of_run`). And whether a
method is native never changes, so a sequence can be told from the method and the entry at any time.
-/

namespace JitBroker

namespace Broker

variable {b : Broker} {m : MethodId} {x : Method}

/-- Whether a method is known to be native. -/
def isNative (b : Broker) (m : MethodId) : Bool := (b.methods[m]?.map (·.isNative)).getD false

/-- The sequence for a compile of a method, for an OSR entry or not. -/
def kindOf (b : Broker) (m : MethodId) (osr : Bool) : IdKind :=
  if b.isNative m then .native else if osr then .osr else .standard

theorem kindOf_eq_idKind (hx : b.methods[m]? = some x) (bci : Int) :
    b.kindOf m (bci != invocationEntry) = x.idKind bci := by
  rw [kindOf, isNative, hx, Method.idKind]
  by_cases hbci : bci = invocationEntry <;> simp [hbci]

end Broker

namespace IdCounters

variable {c : IdCounters} {k k' : IdKind}

/-- A sequence goes on by one when it is drawn from, and not otherwise. -/
theorem last_draw (c : IdCounters) (k k' : IdKind) :
    (c.draw k').2.last k = if k' = k then c.last k + 1 else c.last k := by
  cases k <;> cases k' <;> rfl

theorem fst_draw (c : IdCounters) (k : IdKind) : (c.draw k).1 = c.last k + 1 := by
  cases k <;> rfl

end IdCounters

namespace System

variable {s first : System} {m : Move} {ms : List Move} {k : IdKind}

/-! ### Moves that draw -/

/-- The sequence that a move draws from. -/
def draws? (s : System) (m : Move) : Option IdKind :=
  match s.operation? m, s.ran m with
  | some (.drawId k), _ => some k
  | none, some (.request (.number q)) => some (s.broker.kindOf q.request.method q.request.isOsr)
  | _, _ => none

/-- How often a sequence is drawn from in a run. -/
def drawn (first : System) (ms : List Move) (k : IdKind) : Nat := (first.gather draws? ms).count k

theorem drawn_concat (first : System) (ms : List Move) (m : Move) (k : IdKind) :
    first.drawn (ms ++ [m]) k =
      first.drawn ms k + if (ms.foldl move first).draws? m = some k then 1 else 0 := by
  rw [drawn, gather_concat, List.count_append, ← drawn]
  cases (ms.foldl move first).draws? m with
  | none => rfl
  | some k' => simp [List.count_singleton]

theorem drawn_le_concat (first : System) (ms : List Move) (m : Move) (k : IdKind) :
    first.drawn ms k ≤ first.drawn (ms ++ [m]) k :=
  drawn_concat first ms m k ▸ Nat.le_add_right _ _

/-- A request that is to draw a number knows its method. -/
theorem Lawful.exists_method (hs : s.Lawful) {a : Action} (ha : a ∈ s.pending) {u : UnitId}
    {n : MethodId} {stage : Stage} (hd : a.duty? = some (.desk u n stage)) :
    ∃ x, s.broker.methods[n]? = some x := by
  have hknown := hs.known _ (mem_duties.2 ⟨a, ha, hd⟩)
  refine Table.exists_getElem? ?_
  simpa [ledger, Broker.ledger] using hknown.2

/-- What a request does that draws a number. -/
theorem Runs.number {i : ThreadId} {ch : Choices} {th : Thread} {rest : List Action} {turn : Turn}
    {q : Inquiry} (hs : s.Lawful) (h : s.Runs m i ch th (.request (.number q)) rest turn) :
    ∃ id, id = (s.broker.drawId (s.broker.kindOf q.request.method q.request.isOsr)).1 ∧ turn = {
      broker := (s.broker.drawId (s.broker.kindOf q.request.method q.request.isOsr)).2
      next := [.request (if s.broker.config.allowsId id then .allocate q id else .exclude q id)] } := by
  obtain ⟨x, hx⟩ := hs.exists_method h.mem_pending rfl
  refine ⟨_, rfl, ?_⟩
  have hrun := h.run
  simp only [Action.run, RequestStep.run, hx] at hrun
  rw [Request.isOsr, Broker.kindOf_eq_idKind hx]
  have turn_eq {st st' : RequestStep} (h : st = st') :
      ({ broker := (s.broker.drawId (x.idKind q.request.bci)).2, next := [.request st] } : Turn) =
        { broker := (s.broker.drawId (x.idKind q.request.bci)).2, next := [.request st'] } := h ▸ rfl
  split at hrun
  all_goals
    rename_i hallows
    obtain rfl := Option.some.inj hrun
  · exact turn_eq (if_pos hallows).symm
  · exact turn_eq (if_neg hallows).symm

/-- The sequences go on by what a move draws. -/
theorem ids_move (hs : s.Lawful) (m : Move) : (s.move m).broker.ids =
    match s.draws? m with
    | some k => (s.broker.ids.draw k).2
    | none => s.broker.ids := by
  rcases s.move_cases hs m with ⟨o, ho, hb⟩ | ⟨hop, ⟨hran, hb⟩ | ⟨i, ch, th, a, rest, turn, h⟩⟩
  · rw [hb, draws?, ho, (s.broker.operate_operated o).ids]
    cases o <;> rfl
  · rw [hb, draws?, hop, hran]
  · have hb := congrArg System.broker h.turned
    rw [hb, draws?, hop, h.ran, broker_turned]
    by_cases hnumber : ∃ q, a = .request (.number q)
    · obtain ⟨q, rfl⟩ := hnumber
      obtain ⟨id, -, rfl⟩ := h.number hs
      rfl
    · have hnone : (match (none : Option Operation), some a with
          | some (.drawId k), _ => some k
          | none, some (.request (.number q)) => some (s.broker.kindOf q.request.method q.request.isOsr)
          | _, _ => none) = none := by
        split
        · cases ‹none = some _›
        · exact absurd ⟨_, Option.some.inj ‹some a = _›⟩ hnumber
        · rfl
      rw [hnone]
      cases Action.refits h.run with
      | keeps hfit => exact hfit.ids
      | number => exact absurd ⟨_, rfl⟩ hnumber
      | operate ho => exact absurd ho (h.not_operate hop)
      | _ => rfl

/-- The last number of a sequence is how often it was drawn from. -/
theorem last_of_run (hs : first.Lawful) (hfirst : first.broker.ids = {}) (ms : List Move)
    (k : IdKind) :
    (ms.foldl move first).broker.ids.last k = UInt32.ofNat (first.drawn ms k) := by
  induction ms using List.reverseRecOn with
  | nil =>
    rw [List.foldl_nil, hfirst]
    cases k <;> rfl
  | append_singleton ms m ih =>
    rw [List.foldl_concat, ids_move (hs.foldl ms), drawn_concat]
    cases (ms.foldl move first).draws? m with
    | none => exact ih
    | some k' =>
      simp only [IdCounters.last_draw, ih, Option.some.injEq]
      split
      · rw [UInt32.ofNat_add]
        rfl
      · rfl

/-! ### Native methods -/

/-- Whether a method is native never changes, and methods stay known. -/
theorem isNative_move (hs : s.Lawful) (m : Move) {n : MethodId} (hn : n < s.broker.methods.size) :
    (s.move m).broker.isNative n = s.broker.isNative n := by
  suffices h : (s.move m).broker.methods.map (·.isNative) = s.broker.methods.map (·.isNative) ∨
      ∃ v, (s.move m).broker.methods.map (·.isNative) = (s.broker.methods.map (·.isNative)).add v by
    rw [Broker.isNative, Broker.isNative, ← Table.getElem?_map, ← Table.getElem?_map]
    rcases h with h | ⟨v, h⟩
    · rw [h]
    · rw [h, Table.getElem?_add_of_lt (by rwa [Table.size_map])]
  rcases s.move_cases hs m with ⟨o, -, hb⟩ | ⟨hop, ⟨-, hb⟩ | ⟨i, ch, th, a, rest, turn, h⟩⟩
  · rw [hb]
    exact (s.broker.operate_operated o).natives
  · exact .inl (by rw [hb])
  · have hb := congrArg System.broker h.turned
    rw [hb, broker_turned]
    cases Action.refits h.run with
    | keeps hfit => exact .inl hfit.natives
    | operate ho => exact absurd ho (h.not_operate hop)
    | _ => exact .inl rfl

theorem kindOf_move (hs : s.Lawful) (m : Move) {n : MethodId} (hn : n < s.broker.methods.size)
    (osr : Bool) : (s.move m).broker.kindOf n osr = s.broker.kindOf n osr := by
  rw [Broker.kindOf, Broker.kindOf, isNative_move hs m hn]

end System

end JitBroker
