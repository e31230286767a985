import JitBroker.Proofs.Shutdown.Closing

/-!
# Claims when compilation is disabled

Whoever ends a stale task gives back the claim on its method. A request that found compilation
enabled may claim the method again; but then it has the lock of a queue that is still to be drained,
and its task will be in that queue when it is (`Bound`). No worker takes the task off the queue, as
workers that look for tasks leave. So each claim that is made while compilation is being disabled is
given back by a drain, or by the request itself (`Bound.shift`).
-/

namespace JitBroker

/-- A request that has claimed a method, and has the lock of a queue. -/
def Duty.brings (u : UnitId) (m : MethodId) : Duty → Bool
  | .desk u' m' .claimed | .bring u' m' _ => decide (u' = u ∧ m' = m)
  | _ => false

/-- A method is claimed by a request that has the lock of a queue, or for a task in that queue, and
no worker is to choose a task there. -/
structure Bound (l : Ledger) (ds : Multiset Duty) (m : MethodId) (u : UnitId) : Prop where
  /-- No worker is to choose a task. -/
  unpicked : ∀ {w : WorkerId}, .post w .pick ∈ ds → (Duty.post w .pick).holds l u = false
  /-- There is somebody who has the claim. -/
  claim : (∃ d ∈ ds, d.brings u m = true) ∨
    ∃ st, l.stocks[u]? = some st ∧ ∃ t ∈ st.list.toList, l.isFor m t = true

variable {l l' : Ledger} {ds ds' : Multiset Duty} {d : Option Duty} {new : List Duty}
  {hired : Option WorkerId} {u : UnitId} {w : WorkerId} {m : MethodId} {t : TaskId} {st : Stock}

theorem Duty.passed_of_brings {d : Duty} (h : d.brings u m = true) : d.passed u = true := by
  cases d with
  | desk u' m' stage =>
    cases stage with
    | claimed => exact decide_eq_true (of_decide_eq_true h).1
    | _ => cases h
  | bring u' m' t => exact decide_eq_true (of_decide_eq_true h).1
  | _ => cases h

/-- A claim that is given back is not there. -/
theorem Ledger.claimed_of_claim_false {m' : MethodId} (h : (l.claim m' false).claimed m = true) :
    l.claimed m = true := by
  by_cases hm : m' = m
  · subst hm
    simp [claimed, claim, Table.getElem?_modify] at h
  · rwa [claimed_claim_of_ne hm] at h

namespace Event

/-- A method that is claimed was claimed before, or is claimed by a request that has the lock. -/
theorem claimed_of (h : Event l d new hired l') (hm : l'.claimed m = true) :
    l.claimed m = true ∨ ∃ u, (∃ d₀ ∈ d, d₀.passed u = true) ∧ ∃ d' ∈ new, d'.brings u m = true := by
  have claims {m' : MethodId} {k : Ledger} {d₀ d' : Duty} (hk : k.claims = l.claims)
      (hm : (k.claim m' true).claimed m = true) (hd : d = some d₀) (hd' : d' ∈ new)
      (hboth : ∃ u, d₀.passed u = true ∧ d'.brings u m' = true) :
      l.claimed m = true ∨
        ∃ u, (∃ d₀ ∈ d, d₀.passed u = true) ∧ ∃ d' ∈ new, d'.brings u m = true := by
    by_cases hne : m' = m
    · subst hne
      obtain ⟨u, hpassed, hbrings⟩ := hboth
      exact .inr ⟨u, ⟨d₀, hd, hpassed⟩, d', hd', hbrings⟩
    · rw [Ledger.claimed_claim_of_ne hne, Ledger.claimed, hk] at hm
      exact .inl hm
  cases h with
  | know d => exact .inl (l.claimed_know m ▸ hm)
  | @claim u m' hopen =>
    exact claims (k := l) rfl hm rfl (List.mem_singleton_self _)
      ⟨u, by simp [Duty.passed], by simp [Duty.brings]⟩
  | @stamp u m' t depth =>
    exact claims (k := l.modifyTask t _) rfl hm rfl (List.mem_singleton_self _)
      ⟨u, by simp [Duty.passed], by simp [Duty.brings]⟩
  | unclaim => exact .inl (Ledger.claimed_of_claim_false (l := l.lock _ false) hm)
  | unmark _ | giveUp _ | release _ => exact .inl (Ledger.claimed_of_claim_false hm)
  | _ => exact .inl hm

/-- A task stays in its queue unless somebody drains it or a worker chooses a task. -/
theorem unqueued (h : Event l d new hired l') (hst : l.stocks[u]? = some st)
    (ht : t ∈ st.list.toList) :
    (∃ st', l'.stocks[u]? = some st' ∧ t ∈ st'.list.toList) ∨
      (d = some (.drain u) ∧ .unmark t ∈ new) ∨
        ∃ w, d = some (.post w .pick) ∧ (Duty.post w .pick).holds l u = true := by
  have changed {u' : UnitId} {f : Stock → Stock} (hf : ∀ st, (f st).list = st.list) :
      ∃ st', (l.stocks.modify u' f)[u]? = some st' ∧ t ∈ st'.list.toList := by
    by_cases hu : u' = u
    · subst hu
      exact ⟨_, Table.getElem?_modify_self hst f, (hf st).symm ▸ ht⟩
    · exact ⟨st, (Table.getElem?_modify_of_ne hu f).trans hst, ht⟩
  have other {u' : UnitId} (st' : Stock) (hu : u' ≠ u) :
      ∃ st₀, (l.stocks.modify u' fun _ => st')[u]? = some st₀ ∧ t ∈ st₀.list.toList :=
    ⟨st, (Table.getElem?_modify_of_ne hu _).trans hst, ht⟩
  cases h with
  | enter _ _ | refuse _ | unclaim | lookIn _ _ _ | lookOut _ _ _ =>
    exact .inl (changed fun _ => rfl)
  | @append u' m t' x st' list hx hst' hlist slot =>
    by_cases hu : u' = u
    · subst hu
      obtain rfl := Option.some.inj (hst.symm.trans hst')
      refine .inl ⟨_, Table.getElem?_modify_self hst _, ?_⟩
      exact hlist.toList_eq ▸ List.mem_append_left _ ht
    · exact .inl (other _ hu)
  | @drain u' st' ts list tasks hst' hfree hlist hempty htasks =>
    by_cases hu : u' = u
    · subst hu
      obtain rfl := Option.some.inj (hst.symm.trans hst')
      have hts := hlist.perm.subset ht
      rw [hempty, List.append_nil] at hts
      exact .inr (.inl ⟨rfl, Duty.mem_discard.2 ⟨t, hts, .inl rfl⟩⟩)
    · exact .inl (other _ hu)
  | @fetch w p st' ts t' list tasks hp hst' hlist htasks =>
    by_cases hu : p.unit = u
    · exact .inr (.inr ⟨w, rfl, by simp [Duty.holds_post hp, hu]⟩)
    · exact .inl (other _ hu)
  | @clean w p st' ts list tasks a locked hp hst' hlist htasks ha =>
    by_cases hu : p.unit = u
    · exact .inr (.inr ⟨w, rfl, by simp [Duty.holds_post hp, hu]⟩)
    · exact .inl (other _ hu)
  | _ => exact .inl ⟨st, hst, ht⟩

/-- Who brings a task goes on to bring it, or has brought it, or gives the claim back. -/
theorem brings_of {d : Duty} (h : Event l (some d) new hired l') (hk : d.Known l)
    (hbrings : d.brings u m = true) :
    (∃ d' ∈ new, d'.brings u m = true) ∨ l'.claimed m = false ∨
      ∃ st, l'.stocks[u]? = some st ∧ ∃ t ∈ st.list.toList, l'.isFor m t = true := by
  cases d with
  | desk u' m' stage =>
    obtain rfl : stage = .claimed := by cases stage <;> first | rfl | cases hbrings
    obtain ⟨rfl, rfl⟩ := of_decide_eq_true hbrings
    cases h with
    | plain _ | know _ => exact .inl ⟨_, List.mem_singleton_self _, hbrings⟩
    | refuse hstage => exact absurd rfl hstage
    | unclaim => exact .inr (.inl (Ledger.claimed_claim hk.2 false))
    | allocate hpool r id blocking now =>
      exact .inl ⟨_, List.mem_singleton_self _, by simp [Duty.brings]⟩
    | ring hd _ _ | close hd _ _ => rcases hd with hd | hd <;> cases hd
  | bring u' m' t =>
    obtain ⟨rfl, rfl⟩ := of_decide_eq_true hbrings
    cases h with
    | plain _ | know _ | stamp _ => exact .inl ⟨_, List.mem_singleton_self _, hbrings⟩
    | @append _ _ _ x st list hx hst hlist slot =>
      refine .inr (.inr ⟨_, Table.getElem?_modify_self hst _, t, ?_, ?_⟩)
      · exact hlist.toList_eq ▸ List.mem_append_right _ (List.mem_singleton_self _)
      · obtain ⟨-, -, x₀, hx₀, rfl⟩ := hk
        rw [Ledger.isFor_of_some (Table.getElem?_modify_self hx₀ _)]
        exact decide_eq_true rfl
    | ring hd _ _ | close hd _ _ => rcases hd with hd | hd <;> cases hd
  | _ => cases hbrings

end Event

theorem Duty.lt_of_passed {d : Duty} (hk : d.Known l) (h : d.passed u = true) :
    u < l.stocks.size := by
  cases d with
  | desk u' m stage =>
    obtain rfl : u' = u := by cases stage <;> first | exact of_decide_eq_true h | cases h
    exact hk.1
  | bring u' m t =>
    obtain rfl : u' = u := of_decide_eq_true h
    exact hk.1
  | _ => cases h

namespace Bound

/-- When compilation is disabled, a worker that is to choose a task was to choose it before. -/
theorem picks (hk : ∀ d ∈ ds, d.Known l) (h : Shift l ds d new hired l' ds')
    (hdis : l.disabled = true) (hw : .post w .pick ∈ ds') : .post w .pick ∈ ds ∧
      (Duty.post w .pick).holds l' u = (Duty.post w .pick).holds l u := by
  have hw := h.begun hdis hw rfl
  exact ⟨hw, Duty.holds_mono h.event.extends (hk _ hw)⟩

/-- When compilation is disabled, a method is claimed on the way to a queue only. -/
theorem of_claimed (hg : Guarded l ds) (hk : ∀ d ∈ ds, d.Known l)
    (h : Shift l ds d new hired l' ds') (hdis : l.disabled = true) (hm : l'.claimed m = true) :
    l.claimed m = true ∨ ∃ u, Bound l' ds' m u := by
  refine (h.event.claimed_of hm).imp_right ?_
  rintro ⟨u, ⟨d₀, hd₀, hpassed⟩, d', hd', hbrings⟩
  have hd₀ := h.mem d₀ hd₀
  obtain ⟨st, hst⟩ := Table.exists_getElem? (Duty.lt_of_passed (hk d₀ hd₀) hpassed)
  refine ⟨u, fun {w} hw => Bool.not_eq_true _ ▸ fun hholds => ?_, .inl ⟨d', h.mem_of_new hd', hbrings⟩⟩
  -- The lock is the request's, and so it is no worker's.
  obtain ⟨hw, heq⟩ := picks (u := u) hk h hdis hw
  have := hg.holder_unique hst hd₀ hw (Duty.holds_of_passed hpassed) (heq ▸ hholds)
  rw [this] at hpassed
  cases hpassed

/-- What becomes of a claim on its way to a queue: it stays on its way, or it is given back, or whoever
drains the queue is to give it back. -/
theorem shift (hb : Bound l ds m u) (hs : l.Sound) (hk : ∀ d ∈ ds, d.Known l)
    (h : Shift l ds d new hired l' ds') (hdis : l.disabled = true) :
    Bound l' ds' m u ∨ l'.claimed m = false ∨
      d = some (.drain u) ∧ ∃ t, .unmark t ∈ new ∧ l'.isFor m t = true := by
  have hext := h.event.extends
  have unpicked {w : WorkerId} (hw : .post w .pick ∈ ds') :
      (Duty.post w .pick).holds l' u = false := by
    obtain ⟨hw, heq⟩ := picks (u := u) hk h hdis hw
    exact heq.trans (hb.unpicked hw)
  rcases hb.claim with ⟨d₀, hd₀, hbrings⟩ | ⟨st, hst, t, ht, hfor⟩
  · rcases h.mem_or (.inl hd₀) with hd₀ | rfl
    · exact .inl ⟨unpicked, .inl ⟨d₀, hd₀, hbrings⟩⟩
    rcases h.event.brings_of (hk _ hd₀) hbrings with ⟨d', hd', hbrings'⟩ | hgiven | hqueued
    · exact .inl ⟨unpicked, .inl ⟨d', h.mem_of_new hd', hbrings'⟩⟩
    · exact .inr (.inl hgiven)
    · exact .inl ⟨unpicked, .inr hqueued⟩
  · have hfor : l'.isFor m t = true := (Ledger.isFor_mono hext (hs.queued hst t ht)).trans hfor
    rcases h.event.unqueued hst ht with ⟨st', hst', ht'⟩ | ⟨rfl, hunmark⟩ | ⟨w, rfl, hholds⟩
    · exact .inl ⟨unpicked, .inr ⟨st', hst', t, ht', hfor⟩⟩
    · exact .inr (.inr ⟨rfl, t, hunmark, hfor⟩)
    · rw [hb.unpicked (h.mem _ rfl)] at hholds
      cases hholds

end Bound

end JitBroker
