import JitBroker.Proofs.Task.Tenure

/-!
# Runs of whole steps

Some things that a thread does only make sense as a whole: a request that has claimed its method
brings a task to the queue, a task that was found stale is completed, a worker that shows its task
no more publishes the result, a requester that was woken takes its result. Where a thread may be
left alone for a while, it *rests* (`Action.rests`); a run is one of whole steps if no thread has to
wait in the middle of such a thing while somebody else goes on (`System.whole`).

In these runs a worker that finds that jobs are no longer taken is not interrupted before it has
published the failure. So nobody can claim the method in between (`Tenured.undisturbed_of_whole`),
and there is one claim for each claimed method throughout.
-/

namespace JitBroker

/-! ### Rests -/

/-- Whether a thread may be left alone before it sees to this duty. -/
def Duty.rests : Duty → Bool
  | .outside _ _ | .desk _ _ .entered | .desk _ _ .passed | .sleep _ _ | .wake _ | .drain _ | .rouse
  | .nudge _ => true
  | .desk _ _ .claimed | .bring _ _ _ | .attend _ _ | .free _ | .unmark _ | .spoil _ | .scrap _
  | .finish _ => false
  | .post _ (.hold _) | .post _ (.closing _) | .post _ (.closed _) => false
  | .post _ _ => true

/-- Whether a thread may be left alone before it runs this action. -/
def Action.rests (a : Action) : Bool := a.duty?.all Duty.rests && a.gaveUp?.isNone

/-- Whether a thread may be left alone. -/
def Thread.rests (t : Thread) : Bool := t.agenda.all Action.rests

namespace System

/-- Whether all threads rest. -/
def rests (s : System) : Bool := s.threads.toList.all Thread.rests

/-- Whether nobody is interrupted by a move. -/
def permits (s : System) : Move → Bool
  | .step i _ => (List.range s.threads.size).all fun j => j == i || s.threads[j]?.all Thread.rests
  | .call _ _ | .operate _ => s.rests

/-- Whether nobody is interrupted in a run. -/
def whole (s : System) : List Move → Bool
  | [] => true
  | m :: ms => s.permits m && (s.move m).whole ms

end System

theorem Action.gaveUp_of_rests {a : Action} (h : a.rests = true) : a.gaveUp? = none := by
  rw [rests, Bool.and_eq_true, Option.isNone_iff_eq_none] at h
  exact h.2

namespace System

variable {s : System} {i j : ThreadId} {ch : Choices} {th : Thread}

/-- Who makes a step that is permitted interrupts nobody. -/
theorem rests_of_permits (h : s.permits (.step i ch) = true) (hth : s.threads[j]? = some th)
    (hj : j ≠ i) : th.rests = true := by
  have hmem := List.mem_range.2 (Table.lt_size_of_getElem? hth)
  simpa [hth, hj] using List.all_eq_true.1 h j hmem

/-- Where nobody else is interrupted, nobody intrudes. -/
theorem Tenured.not_intrudes (h : s.Tenured) {m : Move} (hm : s.permits m = true) :
    s.intrudes m = false := by
  cases m with
  | call c n => rfl
  | operate o => rfl
  | step i ch =>
    by_contra hintrudes
    rw [Bool.not_eq_false] at hintrudes
    obtain ⟨th, rest, q, hth, hagenda, hforsaken⟩ := exists_of_intrudes hintrudes
    obtain ⟨a', ha', t, ht, -⟩ := forsaken_iff.1 hforsaken
    obtain ⟨j, th', hth', ha'⟩ := mem_pending.1 ha'
    have hnone : a'.gaveUp? = none := by
      by_cases hj : j = i
      · subst hj
        obtain rfl := Option.some.inj (hth.symm.trans hth')
        rw [hagenda] at ha'
        rcases List.mem_cons.1 ha' with rfl | ha'
        · rfl
        · exact h.head hth a' (by rwa [hagenda])
      · exact Action.gaveUp_of_rests (List.all_eq_true.1 (rests_of_permits hm hth' hj) a' ha')
    rw [hnone] at ht
    cases ht

/-- In a run of whole steps nobody intrudes. -/
theorem Tenured.undisturbed_of_whole {ms : List Move} (h : s.Tenured) (hs : s.Lawful)
    (hwhole : s.whole ms = true) : s.undisturbed ms = true := by
  induction ms generalizing s with
  | nil => rfl
  | cons m ms ih =>
    rw [whole, Bool.and_eq_true] at hwhole
    have hno := h.not_intrudes hwhole.1
    rw [undisturbed, hno]
    exact ih (h.move hs hno) (hs.move m) hwhole.2

/-- In a run of whole steps one has the claim on each method that is claimed. -/
theorem Tenured.foldl {ms : List Move} (h : s.Tenured) (hs : s.Lawful) (hwhole : s.whole ms = true) :
    (ms.foldl System.move s).Tenured :=
  h.foldl_undisturbed hs (h.undisturbed_of_whole hs hwhole)

end System

end JitBroker
