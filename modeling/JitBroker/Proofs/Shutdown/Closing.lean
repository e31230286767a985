import JitBroker.Proofs.Ledger.Claims
import JitBroker.Proofs.Ledger.Posts

/-!
# Disabling compilation

Whoever disables compilation first sets a mark, then drains one queue after the other, and then has
the requesters woken whose tasks are at back-ends. Other threads go on meanwhile, and each of them
looks at the mark at some point only. What is still to be done is seen in the duties (`Closing`):

* as long as a queue is not drained, somebody is to drain it; afterwards nobody brings a task to it
  any more;
* as long as a requester sleeps whose task is at a back-end, somebody is to wake it, or its bell has
  rung.

So once nobody is to drain a queue or to ring a bell, the queues are empty for good, and requesters
that sleep on without a bell have tasks that are at no back-end (`Closing.sleeper`).
-/

namespace JitBroker

/-- A request that found that compilation is not disabled, and has the lock of a queue. -/
def Duty.passed (u : UnitId) : Duty → Bool
  | .desk u' _ .passed | .desk u' _ .claimed | .bring u' _ _ => decide (u' = u)
  | _ => false

/-- Whether a worker in this phase has seen that compilation is not disabled. -/
def Phase.begins : Phase → Bool
  | .pick | .inside _ => true
  | _ => false

/-- No requester of a task has heard all its bells. -/
def Notified (l : Ledger) (ds : Multiset Duty) (t : TaskId) : Prop :=
  ∀ {bell : Nat} {x : Task}, .sleep t bell ∈ ds → l.tasks[t]? = some x → bell < x.bell

/-- The requester of the task that a worker has is still to be woken, or its bell has rung. -/
def Roused (l : Ledger) (ds : Multiset Duty) (w : WorkerId) (t : TaskId) : Prop :=
  .rouse ∈ ds ∨ .nudge w ∈ ds ∨ .wake t ∈ ds ∨ Notified l ds t

/-- A requester that has heard all bells of its task sleeps on a task that is not complete. -/
structure Heard (l : Ledger) (ds : Multiset Duty) : Prop where
  /-- Requesters hear bells only that have rung. -/
  le : ∀ {t : TaskId} {bell : Nat} {x : Task}, .sleep t bell ∈ ds → l.tasks[t]? = some x →
    bell ≤ x.bell
  /-- A task that is completed rings its bell. -/
  incomplete : ∀ {t : TaskId} {x : Task}, .sleep t x.bell ∈ ds → l.tasks[t]? = some x →
    x.complete = false

/-- What is still to be done when compilation has been disabled. -/
structure Closing (l : Ledger) (ds : Multiset Duty) : Prop where
  /-- A queue is still to be drained, or it is empty and nobody brings a task. -/
  drained : l.disabled = true → ∀ {u : UnitId} {st : Stock}, l.stocks[u]? = some st →
    .drain u ∈ ds ∨ st.list.toList = [] ∧ ∀ d ∈ ds, d.passed u = false
  /-- The requester of a task at a back-end is still to be woken, or its bell has rung. -/
  woken : l.disabled = true → ∀ {w : WorkerId} {t : TaskId}, .post w (.inside t) ∈ ds →
    Roused l ds w t

variable {l l' : Ledger} {ds ds' : Multiset Duty} {d : Option Duty} {new : List Duty}
  {hired : Option WorkerId} {u : UnitId} {w : WorkerId} {t : TaskId} {x x' : Task} {st st' : Stock}

/-! ### Events -/

namespace Event

/-- Compilation is disabled by those only who are to do all the rest. -/
theorem disabled_eq (h : Event l d new hired l') :
    l'.disabled = l.disabled ∨ l'.disabled = true ∧ l'.stocks = l.stocks ∧
      new = (List.range l.stocks.size).map .drain ++ [Duty.rouse] := by
  cases h with
  | disable _ => exact .inr ⟨rfl, rfl, rfl⟩
  | _ => exact .inl rfl

/-- Who goes to sleep, or sleeps on, has heard all bells, and finds compilation not disabled. -/
theorem sleep_of_new (h : Event l d new hired l') {bell : Nat} (hnew : .sleep t bell ∈ new) :
    d = some (.sleep t bell) ∧ l'.tasks = l.tasks ∨
      l.disabled = false ∧ ∃ x, l'.tasks[t]? = some x ∧ x.bell = bell ∧ x.complete = false := by
  have discard (ts : List TaskId) : .sleep t bell ∉ ts.flatMap Duty.discard := by
    intro h
    obtain ⟨_, -, h | h | h⟩ := Duty.mem_discard.1 h <;> cases h
  cases h with
  | plain d | know d => exact .inl ⟨Option.mem_toList.1 hnew, rfl⟩
  | fallAsleep hx hopen hd =>
    obtain ⟨rfl, rfl⟩ := Duty.sleep.inj (List.mem_singleton.1 hnew)
    exact .inr ⟨hd, _, Table.getElem?_modify_self hx _, rfl, hopen⟩
  | sleepOn hx hopen hd =>
    obtain ⟨rfl, rfl⟩ := Duty.sleep.inj (List.mem_singleton.1 hnew)
    exact .inr ⟨hd, _, hx, rfl, hopen⟩
  | append _ _ _ _ => split at hnew <;> simp at hnew
  | drain _ _ _ _ _ => exact absurd hnew (discard _)
  | fetch _ _ _ _ | clean _ _ _ _ _ =>
    exact absurd ((List.mem_append.1 hnew).resolve_left (discard _)) (by simp)
  | _ => simp at hnew

/-- A task that is completed rings its bell, unless nobody waits for it. -/
theorem complete_eq (h : Event l d new hired l') (hx : l.tasks[t]? = some x)
    (hx' : l'.tasks[t]? = some x') :
    x'.complete = x.complete ∨ x.bell < x'.bell ∨ (x.blocking && x.awaited) = false := by
  obtain ⟨y, hy, htouched⟩ := h.touched hx
  obtain rfl := Option.some.inj (hx'.symm.trans hy)
  have same (heq : l'.tasks = l.tasks) : x'.complete = x.complete := by
    rw [heq, hx] at hx'
    rw [Option.some.inj hx']
  rcases htouched.complete with heq | rfl | rfl
  · exact .inl heq
  all_goals
    cases h with
    | plain _ | know _ => exact .inl (same rfl)
    | ring hd hx₀ hawaited =>
      obtain ⟨⟨⟩⟩ | ⟨⟨⟩⟩ := hd
      rw [Ledger.modifyTask, Table.getElem?_modify_self hx] at hx'
      exact .inr (.inl (Option.some.inj hx' ▸ Nat.lt_succ_self _))
    | close hd hx₀ hawaited =>
      obtain ⟨⟨⟩⟩ | ⟨⟨⟩⟩ := hd
      exact .inr (.inr (Option.some.inj (hx.symm.trans hx₀) ▸ hawaited))

/-- A worker begins to choose a task, or calls a back-end, only if compilation is not disabled. -/
theorem post_of_new {a : Phase} (h : Event l d new hired l') (hnew : .post w a ∈ new)
    (ha : a.begins = true) : d = some (.post w a) ∨ l.disabled = false := by
  cases h with
  | plain d | know d => exact .inl (Option.mem_toList.1 hnew)
  | stay h | compile h => exact .inr h
  | append _ _ _ _ => split at hnew <;> simp at hnew
  | lookOut _ _ ha' =>
    rcases ha' with rfl | rfl <;> rcases List.mem_singleton.1 hnew with ⟨⟩ <;> cases ha
  | drain _ _ _ _ _ => exact absurd hnew (Duty.post_not_mem_discard _)
  | fetch _ _ _ _ =>
    have hnew := (List.mem_append.1 hnew).resolve_left (Duty.post_not_mem_discard _)
    rcases List.mem_singleton.1 hnew with ⟨⟩
    cases ha
  | clean _ _ _ _ ha' =>
    have hnew := (List.mem_append.1 hnew).resolve_left (Duty.post_not_mem_discard _)
    rcases ha' with ⟨rfl, -⟩ | ⟨rfl, -⟩ <;> rcases List.mem_singleton.1 hnew with ⟨⟩ <;> cases ha
  | publish _ =>
    rcases List.mem_singleton.1 ((List.mem_cons.1 hnew).resolve_left nofun) with ⟨⟩
    cases ha
  | disable _ | rouse | nudge _ | turnAway | refuse _ | unclaim | findDisabled _ _ | leave _ _
  | free _ | unmark _ | spoil | ring _ _ _ | wake | quit | hire _ => simp at hnew
  | _ => rcases List.mem_singleton.1 hnew with ⟨⟩ <;> cases ha

/-- A queue gains tasks only from those who bring them. -/
theorem stock_of (h : Event l d new hired l') (hst' : l'.stocks[u]? = some st') :
    ∃ st, l.stocks[u]? = some st ∧
      (st'.added = st.added ∧ (∀ t ∈ st'.list.toList, t ∈ st.list.toList) ∨
        ∃ m t, d = some (.bring u m t)) := by
  have changed {u' : UnitId} {f : Stock → Stock} (hst : (l.stocks.modify u' f)[u]? = some st')
      (hf : u' = u → ∀ st, l.stocks[u]? = some st → (f st).added = st.added ∧
        ∀ t ∈ (f st).list.toList, t ∈ st.list.toList) :
      ∃ st, l.stocks[u]? = some st ∧
        (st'.added = st.added ∧ (∀ t ∈ st'.list.toList, t ∈ st.list.toList) ∨
          ∃ m t, d = some (.bring u m t)) := by
    obtain ⟨st, hst₀, ⟨-, rfl⟩ | ⟨hu, rfl⟩⟩ := Table.exists_of_modify hst
    · exact ⟨_, hst₀, .inl ⟨rfl, fun _ => id⟩⟩
    · exact ⟨st, hst₀, .inl (hf hu st hst₀)⟩
  have sheds {st : Stock} {ts : List TaskId} {list : TaskList} (hlist : st.list.Sheds ts list) :
      ∀ t ∈ list.toList, t ∈ st.list.toList :=
    fun t ht => hlist.perm.symm.subset (List.mem_append_right _ ht)
  cases h with
  | enter _ _ | refuse _ | unclaim | lookIn _ _ _ | lookOut _ _ _ =>
    exact changed hst' fun _ _ _ => ⟨rfl, fun _ => id⟩
  | @append u' m t x st list hx hst hlist slot =>
    obtain ⟨st, hst, ⟨-, rfl⟩ | ⟨rfl, rfl⟩⟩ := Table.exists_of_modify hst'
    · exact ⟨_, hst, .inl ⟨rfl, fun _ => id⟩⟩
    · exact ⟨st, hst, .inr ⟨m, t, rfl⟩⟩
  | drain hst hfree hlist hempty htasks =>
    refine changed hst' fun hu st hst₀ => ?_
    obtain rfl := Option.some.inj (hst.symm.trans (hu ▸ hst₀))
    exact ⟨rfl, sheds hlist⟩
  | fetch hp hst hlist htasks | clean hp hst hlist htasks ha =>
    refine changed hst' fun hu st hst₀ => ?_
    obtain rfl := Option.some.inj (hst.symm.trans (hu ▸ hst₀))
    exact ⟨rfl, sheds hlist⟩
  | _ => exact ⟨st', hst', .inl ⟨rfl, fun _ => id⟩⟩

/-- Requests go on under the lock of a queue only if compilation is not disabled, or was not when
they looked. -/
theorem passed_of_new (h : Event l d new hired l') {d' : Duty} (hnew : d' ∈ new)
    (hd' : d'.passed u = true) : (∃ d₀ ∈ d, d₀.passed u = true) ∨ l.disabled = false := by
  have discard (ts : List TaskId) : d' ∉ ts.flatMap Duty.discard := by
    intro h
    obtain ⟨_, -, rfl | rfl | rfl⟩ := Duty.mem_discard.1 h <;> cases hd'
  cases h with
  | plain d | know d => exact .inl ⟨d', Option.mem_toList.1 hnew, hd'⟩
  | pass h => exact .inr h
  | claim _ | allocate _ _ _ _ _ | stamp _ =>
    rw [List.mem_singleton.1 hnew] at hd'
    exact .inl ⟨_, rfl, hd'⟩
  | append _ _ _ _ =>
    split at hnew
    · rw [List.mem_singleton.1 hnew] at hd'
      cases hd'
    · cases hnew
  | disable _ =>
    rcases List.mem_append.1 hnew with hnew | hnew
    · obtain ⟨_, -, rfl⟩ := List.mem_map.1 hnew
      cases hd'
    · rw [List.mem_singleton.1 hnew] at hd'
      cases hd'
  | rouse | nudge _ =>
    obtain ⟨_, -, rfl⟩ := List.mem_map.1 hnew
    cases hd'
  | drain _ _ _ _ _ => exact absurd hnew (discard _)
  | fetch _ _ _ _ | clean _ _ _ _ _ =>
    rw [List.mem_singleton.1 ((List.mem_append.1 hnew).resolve_left (discard _))] at hd'
    cases hd'
  | publish _ =>
    simp only [List.mem_cons, List.not_mem_nil, or_false] at hnew
    rcases hnew with rfl | rfl <;> cases hd'
  | refuse _ | turnAway | unclaim | findDisabled _ _ | leave _ _ | free _ | unmark _ | spoil
  | ring _ _ _ | wake | quit | hire _ => cases hnew
  | _ =>
    rw [List.mem_singleton.1 hnew] at hd'
    cases hd'

end Event

/-! ### Sleepers -/

/-- Every event leaves sleepers that have heard all bells asleep on incomplete tasks. -/
theorem Heard.shift (hh : Heard l ds) (hk : ∀ d ∈ ds, d.Known l) (hc : Custody l ds)
    (h : Shift l ds d new hired l' ds') : Heard l' ds' := by
  -- A sleeper is as it was, or goes to sleep.
  have hold {t : TaskId} {bell : Nat} {x' : Task} (hd : .sleep t bell ∈ ds')
      (hx' : l'.tasks[t]? = some x') :
      (bell ≤ x'.bell) ∧ (bell = x'.bell → x'.complete = false) := by
    have old (hd : .sleep t bell ∈ ds) :
        (bell ≤ x'.bell) ∧ (bell = x'.bell → x'.complete = false) := by
      obtain ⟨x, hx⟩ := Table.exists_getElem? (hk _ hd)
      obtain ⟨y, hy, hev⟩ := h.event.extends.task hx
      obtain rfl := Option.some.inj (hx'.symm.trans hy)
      have hle := hh.le hd hx
      refine ⟨hle.trans hev.bell, fun heq => ?_⟩
      have hbell : bell = x.bell := Nat.le_antisymm hle (heq ▸ hev.bell)
      have hopen : x.complete = false := hh.incomplete (hbell ▸ hd) hx
      rcases h.event.complete_eq hx hx' with hcomplete | hrung | hawaited
      · rw [hcomplete, hopen]
      · omega
      · have hsleep := share_pos_iff.2 ⟨_, hd, show (Duty.sleep t bell).part? t = some .sleep by
          simp [Duty.part?]⟩
        have := ((hc t x hx).before hopen).2.2
        rw [hawaited, Bool.toNat_false] at this
        omega
    rcases h.of_mem hd with hd | hd | ⟨w, -, hd⟩
    · exact old hd
    · rcases h.event.sleep_of_new hd with ⟨rfl, -⟩ | ⟨-, x, hx, rfl, hopen⟩
      · exact old (h.mem _ rfl)
      · obtain rfl := Option.some.inj (hx.symm.trans hx')
        exact ⟨Nat.le_refl _, fun _ => hopen⟩
    · cases hd
  exact ⟨fun hd hx => (hold hd hx).1, fun hd hx => (hold hd hx).2 rfl⟩

/-- When compilation is disabled, bells that have rung are not forgotten. -/
theorem Notified.shift (hn : Notified l ds t) (hk : ∀ d ∈ ds, d.Known l)
    (h : Shift l ds d new hired l' ds') (hdis : l.disabled = true) : Notified l' ds' t := by
  intro bell x' hd hx'
  have old (hd : .sleep t bell ∈ ds) : bell < x'.bell := by
    obtain ⟨x, hx⟩ := Table.exists_getElem? (hk _ hd)
    obtain ⟨y, hy, hev⟩ := h.event.extends.task hx
    obtain rfl := Option.some.inj (hx'.symm.trans hy)
    exact (hn hd hx).trans_le hev.bell
  rcases h.of_mem hd with hd | hd | ⟨w, -, hd⟩
  · exact old hd
  · rcases h.event.sleep_of_new hd with ⟨rfl, -⟩ | ⟨henabled, -⟩
    · exact old (h.mem _ rfl)
    · rw [hdis] at henabled
      cases henabled
  · cases hd

/-- As long as a worker shows its task, whoever is to wake the requester does so. -/
theorem Roused.shift {a : Phase} (hr : Roused l ds w t) (hk : ∀ d ∈ ds, d.Known l)
    (hp : Posted l ds) (hh : Heard l ds) (h : Shift l ds d new hired l' ds')
    (hdis : l.disabled = true) (hw : .post w a ∈ ds) (ha : a.shown? = some t) :
    Roused l' ds' w t := by
  have hnew {d' : Duty} (hd' : d' ∈ new) : d' ∈ ds' := h.mem_of_new hd'
  have haway : a ≠ .away := by
    rintro rfl
    cases ha
  obtain ⟨p, ws, hpost, hws, hmem⟩ := hp.crew hw haway
  have hcurrent : p.current = some t := (hp.current hpost).2 ⟨_, hw, ha⟩
  have hevent := h.event
  rcases hr with hrouse | hnudge | hwake | hn
  · rcases h.mem_or (.inl hrouse) with hrouse | rfl
    · exact .inl hrouse
    cases hevent with
    | plain _ | know _ => exact .inl (hnew (List.mem_singleton_self _))
    | ring hd _ _ | close hd _ _ => rcases hd with hd | hd <;> cases hd
    | rouse =>
      -- The worker is in its crew, and so it is listed.
      have hlisted : w ∈ l.crews.toList.flatten :=
        List.mem_flatten.2 ⟨ws, Table.mem_toList_iff.2 ⟨_, hws⟩, hmem⟩
      exact .inr (.inl (hnew (List.mem_map.2 ⟨w, hlisted, rfl⟩)))
  · rcases h.mem_or (.inl hnudge) with hnudge | rfl
    · exact .inr (.inl hnudge)
    cases hevent with
    | plain _ | know _ => exact .inr (.inl (hnew (List.mem_singleton_self _)))
    | ring hd _ _ | close hd _ _ => rcases hd with hd | hd <;> cases hd
    | nudge hp₀ =>
      obtain rfl := Option.some.inj (hpost.symm.trans hp₀)
      exact .inr (.inr (.inl (hnew (by simp [hcurrent]))))
  · rcases h.mem_or (.inl hwake) with hwake | rfl
    · exact .inr (.inr (.inl hwake))
    cases hevent with
    | plain _ | know _ => exact .inr (.inr (.inl (hnew (List.mem_singleton_self _))))
    | ring hd _ _ | close hd _ _ => rcases hd with hd | hd <;> cases hd
    | wake =>
      refine .inr (.inr (.inr fun {bell x'} hd hx' => ?_))
      have hd : .sleep t bell ∈ ds := by
        rcases h.of_mem hd with hd | hd | ⟨_, -, hd⟩
        · exact hd
        · cases hd
        · cases hd
      obtain ⟨x, hx⟩ := Table.exists_getElem? (hk _ hd)
      rw [Ledger.modifyTask, Table.getElem?_modify_self hx] at hx'
      exact Option.some.inj hx' ▸ Nat.lt_succ_of_le (hh.le hd hx)
  · exact .inr (.inr (.inr (hn.shift hk h hdis)))

/-! ### Steps -/

/-- Who brings a task to a queue holds its lock. -/
theorem Duty.holds_of_passed {d : Duty} (h : d.passed u = true) : d.holds l u = true := by
  cases d with
  | desk u' m stage => cases stage <;> first | exact h | cases h
  | bring u' m t => exact h
  | _ => cases h

namespace Shift

/-- When compilation is disabled, nobody comes to bring a task who was not on the way. -/
theorem passed (h : Shift l ds d new hired l' ds') (hdis : l.disabled = true) {d' : Duty}
    (hd : d' ∈ ds') (hpassed : d'.passed u = true) : ∃ d₀ ∈ ds, d₀.passed u = true := by
  rcases h.of_mem hd with hd | hd | ⟨w, -, rfl⟩
  · exact ⟨d', hd, hpassed⟩
  · rcases h.event.passed_of_new hd hpassed with ⟨d₀, hd₀, hpassed⟩ | henabled
    · exact ⟨d₀, h.mem d₀ hd₀, hpassed⟩
    · rw [hdis] at henabled
      cases henabled
  · cases hpassed

/-- Nor does a worker begin to choose a task, or call a back-end. -/
theorem begun {a : Phase} (h : Shift l ds d new hired l' ds') (hdis : l.disabled = true)
    (hw : .post w a ∈ ds') (ha : a.begins = true) : .post w a ∈ ds := by
  rcases h.of_mem hw with hw | hw | ⟨w, -, hw⟩
  · exact hw
  · rcases h.event.post_of_new hw ha with hd | henabled
    · exact h.mem _ hd
    · rw [hdis] at henabled
      cases henabled
  · cases hw
    cases ha

end Shift

namespace Closing

/-- A queue that is drained, or was, has no tasks, and nobody brings one. -/
theorem drained_shift (hc : Closing l ds) (hg : Guarded l ds) (h : Shift l ds d new hired l' ds')
    (hdis : l.disabled = true) (hst' : l'.stocks[u]? = some st') :
    .drain u ∈ ds' ∨ st'.list.toList = [] ∧ ∀ d ∈ ds', d.passed u = false := by
  obtain ⟨st, hst, hchange⟩ := h.event.stock_of hst'
  have nobody (hnone : ∀ d ∈ ds, d.passed u = false) : ∀ d ∈ ds', d.passed u = false := by
    refine fun d' hd' => Bool.not_eq_true _ ▸ fun hpassed => ?_
    obtain ⟨d₀, hd₀, hpassed⟩ := h.passed hdis hd' hpassed
    exact Bool.false_ne_true ((hnone d₀ hd₀).symm.trans hpassed)
  rcases hc.drained hdis hst with hdrain | ⟨hempty, hnone⟩
  · rcases h.mem_or (.inl hdrain) with hdrain | rfl
    · exact .inl hdrain
    have hnew {d' : Duty} (hd' : d' ∈ new) : d' ∈ ds' := h.mem_of_new hd'
    have hevent := h.event
    cases hevent with
    | plain _ | know _ => exact .inl (hnew (List.mem_singleton_self _))
    | ring hd _ _ | close hd _ _ => rcases hd with hd | hd <;> cases hd
    | drain hst₀ hfree hlist hempty htasks =>
      rw [Ledger.setStock, Table.getElem?_modify_self hst] at hst'
      refine .inr ⟨Option.some.inj hst' ▸ hempty, nobody fun d hd => Bool.not_eq_true _ ▸ ?_⟩
      -- The lock of the queue is free.
      intro hpassed
      have := hg.not_holds hst₀ hfree hd
      rw [Duty.holds_of_passed hpassed] at this
      cases this
  · refine .inr ⟨?_, nobody hnone⟩
    rcases hchange with ⟨-, hlist⟩ | ⟨m, t, rfl⟩
    · exact List.eq_nil_iff_forall_not_mem.2 fun t ht => List.not_mem_nil (hempty ▸ hlist t ht)
    · have := hnone _ (h.mem _ rfl)
      simp [Duty.passed] at this

/-- As long as a worker is at a back-end, its requester is still to be woken, or was. -/
theorem woken_shift (hc : Closing l ds) (hk : ∀ d ∈ ds, d.Known l) (hp : Posted l ds)
    (hh : Heard l ds) (h : Shift l ds d new hired l' ds') (hdis : l.disabled = true)
    (hw : .post w (.inside t) ∈ ds') : Roused l' ds' w t := by
  have hw := h.begun hdis hw rfl
  exact (hc.woken hdis hw).shift hk hp hh h hdis hw rfl

/-- Every event leads on. -/
theorem shift (hc : Closing l ds) (hk : ∀ d ∈ ds, d.Known l) (hg : Guarded l ds) (hp : Posted l ds)
    (hh : Heard l ds) (h : Shift l ds d new hired l' ds') : Closing l' ds' := by
  rcases h.event.disabled_eq with heq | ⟨-, hstocks, rfl⟩
  · exact ⟨fun hdis => hc.drained_shift hg h (heq ▸ hdis),
      fun hdis => hc.woken_shift hk hp hh h (heq ▸ hdis)⟩
  -- Whoever disables compilation is to drain every queue and to list the workers.
  · refine ⟨fun _ {u st'} hst' => .inl (h.mem_of_new ?_), fun _ {w t} _ => .inl (h.mem_of_new ?_)⟩
    · rw [hstocks] at hst'
      have hu := Table.lt_size_of_getElem? hst'
      exact List.mem_append_left _ (List.mem_map.2 ⟨u, List.mem_range.2 hu, rfl⟩)
    · exact List.mem_append_right _ (List.mem_singleton_self _)

end Closing

namespace System

variable {s s' : System} {b : Broker}

/-- What holds in every state, whether compilation is disabled or not. -/
structure Orderly (s : System) : Prop where
  /-- The records agree with the threads. -/
  lawful : s.Lawful
  /-- So do the locks. -/
  guarded : Guarded s.ledger s.duties
  /-- So do the places of workers. -/
  posted : Posted s.ledger s.duties
  /-- Sleepers have tasks that are not complete. -/
  heard : Heard s.ledger s.duties
  /-- What is to be done to disable compilation will be done. -/
  closing : Closing s.ledger s.duties

namespace Orderly

theorem shift {d : Option Duty} {new : List Duty} {hired : Option WorkerId} (h : s.Orderly)
    (hs' : s'.Lawful) (hshift : Shift s.ledger s.duties d new hired s'.ledger s'.duties) :
    s'.Orderly where
  lawful := hs'
  guarded := h.guarded.shift h.lawful.known hshift
  posted := h.posted.shift h.lawful.known hshift
  heard := h.heard.shift h.lawful.known h.lawful.custody hshift
  closing := h.closing.shift h.lawful.known h.guarded h.posted h.heard hshift

/-- Every move leads on. -/
theorem move (h : s.Orderly) (m : Move) : (s.move m).Orderly := by
  obtain ⟨_, _, _, hshift⟩ := h.lawful.shift_move m
  exact h.shift (h.lawful.move m) hshift

end Orderly

theorem orderly_launch (hb : b.Fresh) : (launch b).Orderly := by
  have hnone (d : Duty) : d ∉ (launch b).duties := by simp
  refine ⟨lawful_launch hb, fun u st hst => ?_, posted_launch hb, ⟨fun hd => ?_, fun hd => ?_⟩, ?_⟩
  · rw [duties_launch, (hb.stock hst).2]
    rfl
  · exact absurd hd (hnone _)
  · exact absurd hd (hnone _)
  · have hdis (h : (launch b).ledger.disabled = true) : False :=
      Bool.false_ne_true (hb.disabled.symm.trans h)
    exact ⟨fun h => (hdis h).elim, fun h => (hdis h).elim⟩

/-- Every state that a system can get into is orderly. -/
theorem Reachable.orderly (hb : b.Fresh) (h : Reachable (launch b) s) : s.Orderly := by
  induction h with
  | first => exact orderly_launch hb
  | move m _ ih => exact ih.move m

end System

end JitBroker
