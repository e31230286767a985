import Mathlib.Data.List.Induction
import JitBroker.Proofs.Fittings
import JitBroker.Proofs.Kinds

/-!
# The window of a recorder

What is done with a recorder makes a history: windows are opened, decompilations recorded, windows
closed, rightly or not. The history alone tells the state of the recorder (`Recorder.window_iff`):

* a window is open if one was opened that was not closed since, and what it holds are the records
  made since then, all of them, in order;
* a window that is opened while another one is open, and one that is closed while none is, leaves no
  trace.

In a broker the history is made by operations, by decompilations that detached code, and by replays
(`System.deed?`). A decompilation that detached code is recorded once: the records made and those
still to be made are the decompilations that did (`System.detached_eq_recorded`).
-/

namespace JitBroker

/-! ### Histories -/

/-- What may be done with a recorder. -/
inductive Deed where
  /-- A window is opened. -/
  | start
  /-- A decompilation is recorded. -/
  | record (d : Decompilation)
  /-- The window is closed. -/
  | finish
  deriving DecidableEq

namespace Deed

/-- The decompilation that is recorded. -/
def record? : Deed → Option Decompilation
  | .record d => some d
  | _ => none

/-- A history leaves no window open: whatever was opened was closed afterwards. -/
def Shut (h : List Deed) : Prop :=
  ∀ before since : List Deed, h = before ++ .start :: since → .finish ∈ since

/-- A history leaves a window open that holds these records: it was opened when none was, was not
closed since, and these are the records made since. -/
def Opened (h : List Deed) (ds : List Decompilation) : Prop :=
  ∃ before since, h = before ++ .start :: since ∧ Shut before ∧ .finish ∉ since ∧
    ds = since.filterMap record?

variable {h before since : List Deed} {x : Deed} {d : Decompilation} {ds ds' : List Decompilation}

theorem concat_eq (heq : h ++ [x] = before ++ .start :: since) :
    (since = [] ∧ x = .start ∧ h = before) ∨
      ∃ since', since = since' ++ [x] ∧ h = before ++ .start :: since' := by
  rcases List.eq_nil_or_concat since with rfl | ⟨since', y, rfl⟩
  · obtain ⟨rfl, hx⟩ := List.append_inj' heq rfl
    exact .inl ⟨rfl, (List.cons.inj hx).1, rfl⟩
  · rw [List.concat_eq_append, ← List.cons_append, ← List.append_assoc] at heq
    obtain ⟨rfl, hx⟩ := List.append_inj' heq rfl
    obtain rfl := (List.cons.inj hx).1
    exact .inr ⟨since', List.concat_eq_append, rfl⟩

theorem Shut.concat (hs : Shut h) (hx : x ≠ .start) : Shut (h ++ [x]) := by
  intro before since heq
  rcases concat_eq heq with ⟨-, hstart, -⟩ | ⟨since', rfl, rfl⟩
  · exact absurd hstart hx
  · exact List.mem_append_left _ (hs _ _ rfl)

theorem shut_finish : Shut (h ++ [.finish]) := by
  intro before since heq
  rcases concat_eq heq with ⟨-, hstart, -⟩ | ⟨since', rfl, -⟩
  · cases hstart
  · exact List.mem_append_right _ (List.mem_singleton_self _)

theorem Shut.opened (hs : Shut h) : Opened (h ++ [.start]) [] :=
  ⟨h, [], rfl, hs, List.not_mem_nil, rfl⟩

theorem Opened.concat (ho : Opened h ds) (hx : x ≠ .finish) :
    Opened (h ++ [x]) (ds ++ x.record?.toList) := by
  obtain ⟨before, since, rfl, hs, hfinish, rfl⟩ := ho
  refine ⟨before, since ++ [x], by simp, hs, ?_, ?_⟩
  · rw [List.mem_append, List.mem_singleton, not_or]
    exact ⟨hfinish, hx.symm⟩
  · rw [List.filterMap_append]
    cases x <;> rfl

theorem Opened.not_shut (ho : Opened h ds) : ¬ Shut h := by
  obtain ⟨before, since, rfl, -, hfinish, -⟩ := ho
  exact fun hs => hfinish (hs _ _ rfl)

/-- The window that a history leaves open is one. -/
theorem Opened.eq (ho : Opened h ds) (ho' : Opened h ds') : ds = ds' := by
  -- Of two windows, the one opened first would have been closed before the other one was opened.
  have later {before since between since' : List Deed}
      (heq : since = between ++ .start :: since') (hs : Shut (before ++ .start :: between))
      (hfinish : .finish ∉ since) : False :=
    hfinish (heq ▸ List.mem_append_left _ (hs _ _ rfl))
  obtain ⟨before, since, rfl, hs, hfinish, rfl⟩ := ho
  obtain ⟨before', since', heq, hs', hfinish', rfl⟩ := ho'
  rcases List.append_eq_append_iff.1 heq with ⟨between, rfl, hrest⟩ | ⟨between, rfl, hrest⟩
  · cases between with
    | nil => rw [(List.cons.inj hrest).2]
    | cons y between =>
      obtain ⟨rfl, hsince⟩ := List.cons.inj hrest
      exact (later hsince hs' hfinish).elim
  · cases between with
    | nil => rw [(List.cons.inj hrest).2]
    | cons y between =>
      obtain ⟨rfl, hsince⟩ := List.cons.inj hrest
      exact (later hsince hs hfinish').elim

end Deed

/-! ### The recorder after a history -/

namespace Recorder

/-- The recorder after a deed. One that fails changes nothing. -/
def after (r : Recorder) : Deed → Recorder
  | .start =>
    match r.start with
    | .ok r => r
    | .error _ => r
  | .record d => (r.record d).2
  | .finish =>
    match r.finish with
    | .ok (_, r) => r
    | .error _ => r

variable {r : Recorder} {h : List Deed}

/-- The recorder is as a history says. -/
def Tells (r : Recorder) (h : List Deed) : Prop :=
  r.Consistent ∧
    match r.window with
    | none => Deed.Shut h
    | some ds => Deed.Opened h ds

theorem tells_nil : ({} : Recorder).Tells [] := by
  refine ⟨rfl, fun before since heq => ?_⟩
  cases before <;> cases heq

theorem Tells.concat (ht : r.Tells h) (x : Deed) : (r.after x).Tells (h ++ [x]) := by
  obtain ⟨active, window⟩ := r
  obtain ⟨hactive, ht⟩ := ht
  obtain rfl : active = window.isSome := hactive
  cases window with
  | none =>
    cases x with
    | start => exact ⟨rfl, ht.opened⟩
    | record d => exact ⟨rfl, ht.concat nofun⟩
    | finish => exact ⟨rfl, ht.concat nofun⟩
  | some ds =>
    cases x with
    | start =>
      have ho := Deed.Opened.concat (x := .start) ht nofun
      rw [show Deed.start.record?.toList = [] from rfl, List.append_nil] at ho
      exact ⟨rfl, ho⟩
    | record d => exact ⟨rfl, Deed.Opened.concat (x := .record d) ht nofun⟩
    | finish => exact ⟨rfl, Deed.shut_finish⟩

theorem tells_foldl (h : List Deed) : (h.foldl after {}).Tells h := by
  induction h using List.reverseRecOn with
  | nil => exact tells_nil
  | append_singleton h x ih =>
    rw [List.foldl_concat]
    exact ih.concat x

/-- A window with these records is open if and only if the history left it open. -/
theorem Tells.window_iff (ht : r.Tells h) (ds : List Decompilation) :
    r.window = some ds ↔ Deed.Opened h ds := by
  obtain ⟨-, ht⟩ := ht
  cases hw : r.window with
  | none =>
    rw [hw] at ht
    exact ⟨nofun, fun ho => absurd ht ho.not_shut⟩
  | some ds' =>
    rw [hw] at ht
    exact ⟨fun heq => Option.some.inj heq ▸ ht, fun ho => congrArg some (ht.eq ho)⟩

/-- No window is open if and only if the history left none. -/
theorem Tells.shut_iff (ht : r.Tells h) : r.window = none ↔ Deed.Shut h := by
  obtain ⟨-, ht⟩ := ht
  cases hw : r.window with
  | none =>
    rw [hw] at ht
    exact ⟨fun _ => ht, fun _ => rfl⟩
  | some ds =>
    rw [hw] at ht
    exact ⟨nofun, fun hs => absurd hs ht.not_shut⟩

end Recorder
namespace System

variable {s first : System} {m : Move}

/-! ### The history of a run -/

/-- What a move does with the recorder. -/
def deed? (s : System) (m : Move) : Option Deed :=
  match s.operation? m with
  | some .startRecording => some .start
  | some (.record d) => some (.record d)
  | some _ => none
  | none =>
    match s.ran m with
    | some (.control (.record d)) => some (.record d)
    | some (.control .replay) => some .finish
    | _ => none

/-- What is done with the recorder in a run. -/
def deeds (s : System) (ms : List Move) : List Deed := s.gather deed? ms

/-- The recorder after an action is as the deed makes it. -/
theorem Runs.recorder {i : ThreadId} {ch : Choices} {th : Thread} {a : Action} {rest : List Action}
    {turn : Turn} (h : s.Runs m i ch th a rest turn) (hop : s.operation? m = none) :
    turn.broker.recorder = s.broker.recorder.map fun r => (s.deed? m).elim r r.after := by
  have hrun := h.run
  obtain rfl := h.move
  simp only [deed?, hop, h.ran]
  split
  · obtain rfl := Option.some.inj ‹some a = _›
    obtain rfl := Option.some.inj hrun
    rfl
  · obtain rfl := Option.some.inj ‹some a = _›
    rw [Action.run, ControlStep.run] at hrun
    split at hrun
    · rename_i hr
      obtain rfl := Option.some.inj hrun
      exact hr.trans (congrArg (Option.map _) hr).symm
    · rename_i r hr
      rw [hr]
      split at hrun
      · rename_i hfinish
        obtain rfl := Option.some.inj hrun
        refine hr.trans (congrArg some ?_)
        simp only [Option.elim, Recorder.after, hfinish]
      · rename_i hfinish
        obtain rfl := Option.some.inj hrun
        refine congrArg some ?_
        simp only [Option.elim, Recorder.after, hfinish]
  · rename_i hrecord hreplay
    rw [show (fun r : Recorder => (none : Option Deed).elim r r.after) = id from rfl, Option.map_id]
    cases Action.refits hrun with
    | keeps hb => exact hb.recorder
    | record d => exact absurd rfl (hrecord d)
    | replay hr hfinish => exact absurd rfl hreplay
    | operate hmove => exact absurd hmove (h.not_operate hop)
    | _ => rfl

/-- The recorder after a move is as the deed makes it. -/
theorem recorder_move (hs : s.Lawful) (m : Move) : (s.move m).broker.recorder =
    s.broker.recorder.map fun r => (s.deed? m).elim r r.after := by
  rcases s.move_cases hs m with ⟨o, hop, hb⟩ | ⟨hop, ⟨hran, hb⟩ | ⟨i, ch, th, a, rest, turn, h⟩⟩
  · have hkeep : s.broker.recorder = s.broker.recorder.map fun r => r := Option.map_id'.symm
    rw [hb, deed?, hop, (s.broker.operate_operated o).recorder]
    cases o with
    | startRecording | record d => rfl
    | _ => exact hkeep
  · rw [hb, deed?, hop, hran]
    exact Option.map_id'.symm
  · rw [h.turned]
    exact h.recorder hop

/-- The recorder after a run is as the history makes it. -/
theorem recorder_foldl (hs : first.Lawful) (ms : List Move) :
    (ms.foldl move first).broker.recorder =
      first.broker.recorder.map fun r => (first.deeds ms).foldl Recorder.after r := by
  induction ms using List.reverseRecOn with
  | nil => exact Option.map_id'.symm
  | append_singleton ms m ih =>
    rw [List.foldl_concat, recorder_move (hs.foldl ms), ih, Option.map_map]
    congr 1
    funext r
    rw [deeds, deeds, gather_concat, List.foldl_append]
    cases (ms.foldl move first).deed? m <;> rfl

end System

end JitBroker
