import JitBroker.Proofs.Protocol

/-!
# Who holds a lock

The lock of a queue is taken exactly while there is somebody to give it back: a request that has
entered (`Duty.desk`, `Duty.bring`), or a worker that looks for a task. There is never more than
one of them (`Guarded`).
-/

namespace JitBroker

/-- Whether a duty is one of the holder of the lock of a queue. -/
def Duty.holds (l : Ledger) (u : UnitId) : Duty → Bool
  | .desk u' _ _ | .bring u' _ _ => decide (u' = u)
  | .post w .search | .post w .pick => decide ((l.posts[w]?.map (·.unit)) = some u)
  | _ => false

/-- The lock of each queue is taken if and only if somebody holds it, and nobody else does. -/
def Guarded (l : Ledger) (ds : Multiset Duty) : Prop :=
  ∀ (u : UnitId) (st : Stock), l.stocks[u]? = some st →
    ds.countP (·.holds l u) = st.locked.toNat

namespace Duty

variable {l l' : Ledger} {u : UnitId}

/-- A worker holds the lock of its own queue only. -/
theorem holds_post {w : WorkerId} {p : Post} {a : Phase} (hp : l.posts[w]? = some p) :
    (post w a).holds l u = decide ((a = .search ∨ a = .pick) ∧ p.unit = u) := by
  cases a <;> simp [holds, hp]

/-- What a duty holds does not depend on when it is looked at. -/
theorem holds_mono (h : l.Extends l') {d : Duty} (hd : d.Known l) : d.holds l' u = d.holds l u := by
  cases d with
  | post w a =>
    obtain ⟨p, hp⟩ := Table.exists_getElem? hd.1
    obtain ⟨p', hp', hunit⟩ := h.post hp
    rw [holds_post hp, holds_post hp', hunit]
  | _ => rfl

/-- Who ends stale tasks holds no lock. -/
theorem countP_discard {p : Duty → Bool}
    (hp : ∀ t, p (.unmark t) = false ∧ p (.spoil t) = false ∧ p (.scrap t) = false)
    (ts : List TaskId) : (ts.flatMap discard).countP p = 0 := by
  refine List.countP_eq_zero.2 fun d hd => ?_
  obtain ⟨t, -, hd⟩ := mem_discard.1 hd
  obtain ⟨h₁, h₂, h₃⟩ := hp t
  rcases hd with rfl | rfl | rfl <;> simp_all

end Duty

variable {l l' : Ledger} {d : Option Duty} {new : List Duty} {w : Option WorkerId} {u : UnitId}
  {st st' : Stock}

/-- What may become of the lock of a queue, from `v` to `v'`, and of the number of its holders. -/
def Handover (v v' : Bool) (n n' : Nat) : Prop :=
  v' = v ∧ n' = n ∨ v = false ∧ v' = true ∧ n = 0 ∧ n' = 1 ∨ v' = false ∧ n = 1 ∧ n' = 0

/-- An event takes a lock that is free, or gives back one that its duty holds, or does neither. -/
theorem Event.handover (h : Event l d new w l') (hst' : l'.stocks[u]? = some st') :
    ∃ st, l.stocks[u]? = some st ∧ Handover st.locked st'.locked
      (d.toList.countP (·.holds l u)) (new.countP (·.holds l' u)) := by
  have same (hstocks : l'.stocks = l.stocks)
      (hcount : new.countP (·.holds l' u) = d.toList.countP (·.holds l u)) :
      ∃ st, l.stocks[u]? = some st ∧ Handover st.locked st'.locked
        (d.toList.countP (·.holds l u)) (new.countP (·.holds l' u)) :=
    ⟨st', hstocks ▸ hst', .inl ⟨rfl, hcount⟩⟩
  have changed {u' : UnitId} {f : Stock → Stock}
      (hst : (l.stocks.modify u' f)[u]? = some st') := Table.exists_of_modify hst
  have hdiscard (l : Ledger) (ts : List TaskId) :
      (ts.flatMap Duty.discard).countP (·.holds l u) = 0 :=
    Duty.countP_discard (fun _ => ⟨rfl, rfl, rfl⟩) ts
  cases h with
  | plain d | know d => exact same rfl rfl
  | @enter u' m st hst hfree =>
    obtain ⟨st₀, hst₀, ⟨hu, rfl⟩ | ⟨rfl, rfl⟩⟩ := changed hst'
    · exact ⟨_, hst₀, .inl ⟨rfl, by simp [Duty.holds, hu]⟩⟩
    · obtain rfl := Option.some.inj (hst.symm.trans hst₀)
      exact ⟨st, hst, .inr (.inl ⟨hfree, rfl, by simp [Duty.holds], by simp [Duty.holds]⟩)⟩
  | refuse _ | unclaim =>
    obtain ⟨st₀, hst₀, ⟨hu, rfl⟩ | ⟨rfl, rfl⟩⟩ := changed hst'
    · exact ⟨_, hst₀, .inl ⟨rfl, by simp [Duty.holds, hu]⟩⟩
    · exact ⟨st₀, hst₀, .inr (.inr ⟨rfl, by simp [Duty.holds], rfl⟩)⟩
  | @append u' m t x st list hx hst hlist slot =>
    have hnew : (if x.blocking then [Duty.attend u' t] else []).countP
        (·.holds ((l.setStock u' ⟨list, st.added + 1, false⟩).modifyTask t fun x =>
          { x with slot := some slot }) u) = 0 := by
      split <;> rfl
    obtain ⟨st₀, hst₀, ⟨hu, rfl⟩ | ⟨rfl, rfl⟩⟩ := changed hst'
    · exact ⟨_, hst₀, .inl ⟨rfl, hnew.trans (by simp [Duty.holds, hu])⟩⟩
    · exact ⟨st₀, hst₀, .inr (.inr ⟨rfl, by simp [Duty.holds], hnew⟩)⟩
  | disable _ =>
    refine same rfl ?_
    simp [Duty.holds, List.countP_append, List.countP_map, Function.comp_def]
  | rouse =>
    refine same rfl ?_
    simp [Duty.holds, List.countP_map, Function.comp_def]
  | nudge hp =>
    refine same rfl ?_
    simp [Duty.holds, List.countP_map, Function.comp_def]
  | drain hst _ _ _ _ =>
    obtain ⟨st₀, hst₀, ⟨hu, rfl⟩ | ⟨rfl, rfl⟩⟩ := changed hst'
    · exact ⟨_, hst₀, .inl ⟨rfl, hdiscard _ _⟩⟩
    · obtain rfl := Option.some.inj (hst.symm.trans hst₀)
      exact ⟨_, hst₀, .inl ⟨rfl, hdiscard _ _⟩⟩
  | @lookIn w p st hp hst hfree =>
    have hp' : (l.lock p.unit true).posts[w]? = some p := hp
    obtain ⟨st₀, hst₀, ⟨hu, rfl⟩ | ⟨rfl, rfl⟩⟩ := changed hst'
    · exact ⟨_, hst₀, .inl ⟨rfl, by simp [Duty.holds_post hp, Duty.holds_post hp', hu]⟩⟩
    · obtain rfl := Option.some.inj (hst.symm.trans hst₀)
      refine ⟨st, hst, .inr (.inl ⟨hfree, rfl, ?_, ?_⟩)⟩
      · simp [Duty.holds_post hp]
      · simp [Duty.holds_post hp']
  | @lookOut w p a a' hp ha ha' =>
    have hp' : (l.lock p.unit false).posts[w]? = some p := hp
    have hold : a' ≠ .search ∧ a' ≠ .pick := by rcases ha' with rfl | rfl <;> simp
    obtain ⟨st₀, hst₀, ⟨hu, rfl⟩ | ⟨rfl, rfl⟩⟩ := changed hst'
    · exact ⟨_, hst₀, .inl ⟨rfl, by simp [Duty.holds_post hp, Duty.holds_post hp', hu]⟩⟩
    · refine ⟨st₀, hst₀, .inr (.inr ⟨rfl, ?_, ?_⟩)⟩
      · simp [Duty.holds_post hp, ha]
      · simp [Duty.holds_post hp', hold]
  | stay _ => exact same rfl rfl
  | @fetch w p st ts t list tasks hp hst hlist htasks =>
    have hnew (l : Ledger) : (ts.flatMap Duty.discard ++ [Duty.post w (.hold t)]).countP
        (·.holds l u) = 0 := by
      rw [List.countP_append, hdiscard]
      rfl
    obtain ⟨st₀, hst₀, ⟨hu, rfl⟩ | ⟨rfl, rfl⟩⟩ := changed hst'
    · exact ⟨_, hst₀, .inl ⟨rfl, (hnew _).trans (by simp [Duty.holds_post hp, hu])⟩⟩
    · exact ⟨st₀, hst₀, .inr (.inr ⟨rfl, by simp [Duty.holds_post hp], hnew _⟩)⟩
  | @clean w p st ts list tasks a locked hp hst hlist htasks ha =>
    have hnew {l : Ledger} (hp : l.posts[w]? = some p) :
        (ts.flatMap Duty.discard ++ [Duty.post w a]).countP (·.holds l u) =
          if (a = .search ∨ a = .pick) ∧ p.unit = u then 1 else 0 := by
      rw [List.countP_append, hdiscard]
      simp [Duty.holds_post hp, List.countP_singleton]
    obtain ⟨st₀, hst₀, ⟨hu, rfl⟩ | ⟨rfl, rfl⟩⟩ := changed hst'
    · refine ⟨_, hst₀, .inl ⟨rfl, (hnew hp).trans ?_⟩⟩
      simp [Duty.holds_post hp, hu]
    · obtain rfl := Option.some.inj (hst.symm.trans hst₀)
      rcases ha with ⟨rfl, rfl⟩ | ⟨rfl, rfl⟩
      · exact ⟨st, hst, .inr (.inr ⟨rfl, by simp [Duty.holds_post hp], hnew hp⟩)⟩
      · exact ⟨st, hst, .inl ⟨rfl, (hnew hp).trans (by simp [Duty.holds_post hp])⟩⟩
  | judge ha => exact same rfl (by rcases ha with rfl | rfl <;> rfl)
  | ring hd _ _ | close hd _ _ => exact same rfl (by rcases hd with rfl | rfl <;> rfl)
  | _ => exact same rfl rfl

namespace Guarded

variable {ds ds' : Multiset Duty}

/-- Every event keeps the locks guarded. -/
theorem shift (hg : Guarded l ds) (hk : ∀ d ∈ ds, d.Known l) (h : Shift l ds d new w l' ds') :
    Guarded l' ds' := by
  intro u st' hst'
  obtain ⟨st, hst, hhandover⟩ := h.event.handover hst'
  have hbalance := congrArg (Multiset.countP (·.holds l' u)) h.balance
  have hold : ds.countP (·.holds l' u) = ds.countP (·.holds l u) :=
    Multiset.countP_congr rfl fun d hd => by rw [Duty.holds_mono h.event.extends (hk d hd)]
  have hduty : d.toList.countP (·.holds l' u) = d.toList.countP (·.holds l u) :=
    List.countP_congr fun d' hd => by
      rw [Duty.holds_mono h.event.extends (hk d' (h.mem d' (Option.mem_toList.1 hd)))]
  have hhired : (w.toList.map fun w => Duty.post w .idle).countP (·.holds l' u) = 0 := by
    cases w <;> rfl
  simp only [Multiset.countP_add, Multiset.coe_countP, List.countP_append, Bool.decide_eq_true,
    hold, hduty, hhired, hg u st hst] at hbalance
  obtain ⟨hlocked, hcount⟩ | ⟨hopen, hlocked, hnone, hone⟩ | ⟨hlocked, hone, hnone⟩ := hhandover
  · rw [hlocked]
    omega
  · rw [hopen, hnone, hone, Bool.toNat_false] at hbalance
    rw [hlocked, Bool.toNat_true]
    omega
  · have := Bool.toNat_le st.locked
    rw [hlocked, Bool.toNat_false]
    omega

/-- Nobody holds a lock that is free. -/
theorem not_holds (hg : Guarded l ds) (hst : l.stocks[u]? = some st) (hfree : st.locked = false)
    {d : Duty} (hd : d ∈ ds) : d.holds l u = false := by
  have := hg u st hst
  rw [hfree, Bool.toNat_false, Multiset.countP_eq_zero] at this
  exact Bool.not_eq_true _ ▸ this d hd

/-- Only one duty holds a lock. -/
theorem holder_unique (hg : Guarded l ds) (hst : l.stocks[u]? = some st) {d d' : Duty}
    (hd : d ∈ ds) (hd' : d' ∈ ds) (hh : d.holds l u) (hh' : d'.holds l u) : d = d' := by
  by_contra hne
  have := two_le_countP (p := fun d => d.holds l u = true) hd hd' hne hh hh'
  have := hg u st hst
  have := Bool.toNat_le st.locked
  omega

end Guarded

end JitBroker
