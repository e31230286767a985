import JitBroker.Proofs.Ledger.Locks

/-!
# Where workers are

The records of the broker say which workers are in which crew, and which task each of them shows.
These records agree with the threads (`Posted`): there is one thread at most for each worker, a
worker that has not left is in its crew, and a task is shown for a worker exactly while the worker
is at work on it.

An event touches these records in a few ways only (`Event.Staffs`), and none of them breaks the
agreement (`Posted.shift`); so it holds in every state (`System.Reachable.posted`).
-/

namespace JitBroker

/-- Whether a duty is to be a certain worker. -/
def Duty.isPost (w : WorkerId) : Duty → Bool
  | .post w' _ => decide (w' = w)
  | _ => false

/-- The task that a worker in this phase shows. -/
def Phase.shown? : Phase → Option TaskId
  | .shown t | .inside t | .after t => some t
  | _ => none

/-- Workers are where the records say. -/
structure Posted (l : Ledger) (ds : Multiset Duty) : Prop where
  /-- Each worker is there once at most. -/
  once : ∀ w, ds.countP (·.isPost w) ≤ 1
  /-- A worker that has not left is in its crew. -/
  crew : ∀ {w : WorkerId} {a : Phase}, .post w a ∈ ds → a ≠ .away → ∃ p ws,
    l.posts[w]? = some p ∧ l.crews[p.unit]? = some ws ∧ w ∈ ws
  /-- A task is shown for a worker if and only if the worker is at work on it. -/
  current : ∀ {w : WorkerId} {p : Post} {t : TaskId}, l.posts[w]? = some p →
    (p.current = some t ↔ ∃ a, .post w a ∈ ds ∧ a.shown? = some t)

variable {l l' : Ledger} {ds ds' : Multiset Duty} {d : Option Duty} {new : List Duty}
  {hired : Option WorkerId} {w : WorkerId} {a a' : Phase}

@[simp] theorem Duty.isPost_post (w w' : WorkerId) (a : Phase) :
    (post w' a).isPost w = decide (w' = w) := rfl

/-- Two duties of a worker that is there once are one. -/
theorem Duty.post_unique (h : ds.countP (·.isPost w) ≤ 1) (ha : .post w a ∈ ds)
    (ha' : .post w a' ∈ ds) : a = a' := by
  by_contra hne
  have := two_le_countP (p := fun d => d.isPost w = true) ha ha' (by simpa using hne) (by simp)
    (by simp)
  omega

theorem Duty.post_not_mem_discard (ts : List TaskId) : post w a ∉ ts.flatMap discard := by
  intro h
  obtain ⟨t, -, h | h | h⟩ := mem_discard.1 h <;> cases h

namespace Event

/-- The worker that is hired is a new one. -/
theorem hired_eq (h : Event l d new hired l') : ∀ w ∈ hired, w = l.posts.size := by
  cases h with
  | hire hws => exact fun w hw => (Option.some.inj hw).symm
  | _ => exact nofun

/-- An event makes nobody a worker who was not that worker before. -/
theorem countP_isPost (h : Event l d new hired l') (w : WorkerId) :
    new.countP (·.isPost w) ≤ d.toList.countP (·.isPost w) := by
  have hdiscard (ts : List TaskId) : (ts.flatMap Duty.discard).countP (·.isPost w) = 0 :=
    Duty.countP_discard (fun _ => ⟨rfl, rfl, rfl⟩) ts
  cases h with
  | plain d | know d => exact Nat.le_refl _
  | append _ _ _ _ =>
    split
    · exact Nat.zero_le _
    · exact Nat.zero_le _
  | disable _ | rouse | nudge _ =>
    simp [Duty.isPost, List.countP_append, List.countP_map, Function.comp_def]
  | drain _ _ _ _ _ => exact (hdiscard _).trans_le (Nat.zero_le _)
  | fetch _ _ _ _ | clean _ _ _ _ _ =>
    rw [List.countP_append, hdiscard, Nat.zero_add]
    exact Nat.le_refl _
  | publish result => exact Nat.le_refl _
  | ring hd _ _ | close hd _ _ => exact Nat.zero_le _
  | _ => first | exact Nat.le_refl _ | exact Nat.zero_le _

/-- What an event does to the records of workers and to the crews. -/
inductive Staffs (l : Ledger) : Option Duty → List Duty → Option WorkerId → Ledger → Prop where
  /-- Nothing: a worker that goes on does not come back, and shows the task that it showed. -/
  | keep {l' : Ledger} {d : Option Duty} {new : List Duty} (hposts : l'.posts = l.posts)
    (hcrews : l'.crews = l.crews)
    (hnew : ∀ {w : WorkerId} {a : Phase}, .post w a ∈ new → ∃ a₀, d = some (.post w a₀) ∧
      (a₀ = .away → a = .away) ∧ a.shown? = a₀.shown?)
    (hold : ∀ {w : WorkerId} {a₀ : Phase} {t : TaskId}, d = some (.post w a₀) →
      a₀.shown? = some t → ∃ a, .post w a ∈ new ∧ a.shown? = some t) : Staffs l d new none l'
  /-- A worker shows another task, or none. -/
  | display {w : WorkerId} {a a' : Phase} {t : Option TaskId} (ha : a ≠ .away)
    (ht : a'.shown? = t) : Staffs l (some (.post w a)) [.post w a'] none (l.display w t)
  /-- A worker leaves its crew. -/
  | retire {w : WorkerId} {p : Post} {ws : List WorkerId} (hp : l.posts[w]? = some p)
    (hws : l.crews[p.unit]? = some (ws ++ [w])) :
    Staffs l (some (.post w .idle)) [.post w .away] none (l.setCrew p.unit ws)
  /-- A worker is hired. -/
  | hire {u : UnitId} {ws : List WorkerId} (hws : l.crews[u]? = some ws) :
    Staffs l none [] (some l.posts.size)
      { l.setCrew u (ws ++ [l.posts.size]) with posts := l.posts.add ⟨u, none⟩ }

theorem staffs (h : Event l d new hired l') : Staffs l d new hired l' := by
  -- A worker that goes on with one other phase, and shows what it showed.
  have on {l' : Ledger} {w : WorkerId} {a₀ a : Phase} (ts : List TaskId)
      (hposts : l'.posts = l.posts) (hcrews : l'.crews = l.crews) (haway : a₀ = .away → a = .away)
      (hshown : a.shown? = a₀.shown?) :
      Staffs l (some (.post w a₀)) (ts.flatMap Duty.discard ++ [.post w a]) none l' := by
    refine .keep hposts hcrews (fun h => ?_) fun h ht => ?_
    · have h := (List.mem_append.1 h).resolve_left (Duty.post_not_mem_discard _)
      obtain ⟨rfl, rfl⟩ := Duty.post.inj (List.mem_singleton.1 h)
      exact ⟨_, rfl, haway, hshown⟩
    · obtain ⟨rfl, rfl⟩ := Duty.post.inj (Option.some.inj h)
      exact ⟨a, by simp, hshown.trans ht⟩
  cases h with
  | take => exact .display nofun rfl
  | drop => exact .display nofun rfl
  | retire hp hws => exact .retire hp hws
  | hire hws => exact .hire hws
  | plain d | know d =>
    exact .keep rfl rfl (fun h => ⟨_, Option.mem_toList.1 h, id, rfl⟩)
      fun h ht => ⟨_, Option.mem_toList.2 h, ht⟩
  | append _ _ _ _ => exact .keep rfl rfl (fun h => by split at h <;> simp at h) nofun
  | disable _ | rouse | nudge _ => exact .keep rfl rfl (fun h => by simp at h) nofun
  | drain _ _ _ _ _ =>
    exact .keep rfl rfl (fun h => absurd h (Duty.post_not_mem_discard _)) nofun
  | fetch _ _ _ _ => exact on _ rfl rfl nofun rfl
  | clean _ _ _ _ ha =>
    rcases ha with ⟨rfl, -⟩ | ⟨rfl, -⟩ <;> exact on _ rfl rfl nofun rfl
  | publish result =>
    refine .keep rfl rfl (fun h => ?_) fun h ht => ?_
    · simp only [List.mem_cons, reduceCtorEq, List.not_mem_nil, or_false, false_or] at h
      obtain ⟨rfl, rfl⟩ := Duty.post.inj h
      exact ⟨_, rfl, nofun, rfl⟩
    · obtain ⟨rfl, rfl⟩ := Duty.post.inj (Option.some.inj h)
      cases ht
  | judge ha => rcases ha with rfl | rfl <;> exact on [] rfl rfl nofun rfl
  | lookOut hp ha ha' =>
    rcases ha with rfl | rfl <;> rcases ha' with rfl | rfl <;>
      exact on [] rfl rfl nofun rfl
  | lookIn _ _ _ | stay _ | compile _ | giveUp _ | release _ | desert =>
    exact on [] rfl rfl nofun rfl
  | quit =>
    refine .keep rfl rfl (fun h => by simp at h) fun h ht => ?_
    obtain ⟨rfl, rfl⟩ := Duty.post.inj (Option.some.inj h)
    cases ht
  | ring hd _ _ | close hd _ _ =>
    refine .keep rfl rfl (fun h => by simp at h) fun h _ => ?_
    rcases hd with rfl | rfl <;> cases h
  | _ => exact .keep rfl rfl (fun h => by simp at h) nofun

end Event

namespace Posted

/-- After an event no worker is there twice. -/
theorem shift_once (hp : Posted l ds) (hk : ∀ d ∈ ds, d.Known l)
    (h : Shift l ds d new hired l' ds') (w : WorkerId) : ds'.countP (·.isPost w) ≤ 1 := by
  have hbalance := congrArg (Multiset.countP (·.isPost w)) h.balance
  have hnew := h.event.countP_isPost w
  have hold := hp.once w
  simp only [Multiset.countP_add, Multiset.coe_countP, List.countP_append,
    Bool.decide_eq_true] at hbalance
  cases hw : hired with
  | none =>
    simp only [hw, Option.toList_none, List.map_nil, List.countP_nil] at hbalance
    omega
  | some w₀ =>
    -- The new worker was not there before.
    obtain rfl := h.event.hired_eq w₀ hw
    simp only [hw, Option.toList_some, List.map_cons, List.map_nil, List.countP_singleton,
      Duty.isPost_post, decide_eq_true_eq] at hbalance
    by_cases hsize : l.posts.size = w
    · have hnone : ds.countP (·.isPost w) = 0 := by
        refine Multiset.countP_eq_zero.2 fun d hd hpost => ?_
        cases d with
        | post w' a =>
          obtain rfl : w' = w := by simpa using hpost
          exact Nat.lt_irrefl _ (hsize ▸ (hk _ hd).1)
        | _ => cases hpost
      simp only [hsize, if_true] at hbalance
      omega
    · simp only [hsize, if_false] at hbalance
      omega

/-- Every event leaves workers where the records say. -/
theorem shift (hp : Posted l ds) (hk : ∀ d ∈ ds, d.Known l) (h : Shift l ds d new hired l' ds') :
    Posted l' ds' := by
  have honce := hp.shift_once hk h
  have hof {w : WorkerId} {a : Phase} (ha : .post w a ∈ ds') :
      .post w a ∈ ds ∨ .post w a ∈ new ∨ hired = some w ∧ a = .idle := by
    refine (h.of_mem ha).imp_right (Or.imp_right ?_)
    rintro ⟨w', hw', heq⟩
    obtain ⟨rfl, rfl⟩ := Duty.post.inj heq
    exact ⟨hw', rfl⟩
  have hnew {d' : Duty} (hd' : d' ∈ new) : d' ∈ ds' := h.mem_of_new hd'
  have hstay {d' : Duty} (hd' : d' ∈ ds) : d' ∈ ds' ∨ d = some d' := h.mem_or (.inl hd')
  have hduty := h.mem
  cases h.event.staffs with
  | keep hposts hcrews hgoes holds =>
    refine ⟨honce, fun {w a} ha haway => ?_, fun {w p t} hw => ?_⟩
    · rw [hposts, hcrews]
      rcases hof ha with ha | ha | ⟨hnone, -⟩
      · exact hp.crew ha haway
      · obtain ⟨a₀, hd, hback, -⟩ := hgoes ha
        exact hp.crew (hduty _ hd) fun heq => haway (hback heq)
      · cases hnone
    · rw [hposts] at hw
      rw [hp.current hw]
      constructor
      · rintro ⟨a, ha, hshown⟩
        rcases hstay ha with ha | hd
        · exact ⟨a, ha, hshown⟩
        · obtain ⟨a', ha', hshown'⟩ := holds hd hshown
          exact ⟨a', hnew ha', hshown'⟩
      · rintro ⟨a, ha, hshown⟩
        rcases hof ha with ha | ha | ⟨hnone, -⟩
        · exact ⟨a, ha, hshown⟩
        · obtain ⟨a₀, hd, -, heq⟩ := hgoes ha
          exact ⟨a₀, hduty _ hd, heq ▸ hshown⟩
        · cases hnone
  | @display w₀ a₀ a' t₀ ha₀ ht₀ =>
    have hother {w : WorkerId} {a : Phase} (hw : w ≠ w₀) : .post w a ∈ ds' ↔ .post w a ∈ ds := by
      constructor
      · intro ha
        rcases hof ha with ha | ha | ⟨hnone, -⟩
        · exact ha
        · exact absurd (Duty.post.inj (List.mem_singleton.1 ha)).1 hw
        · cases hnone
      · intro ha
        exact (hstay ha).resolve_right fun hd => hw (Duty.post.inj (Option.some.inj hd)).1.symm
    refine ⟨honce, fun {w a} ha haway => ?_, fun {w p t} hw => ?_⟩
    · obtain ⟨p, ws, hp, hws, hmem⟩ : ∃ p ws, l.posts[w]? = some p ∧ l.crews[p.unit]? = some ws ∧
          w ∈ ws := by
        by_cases hw : w = w₀
        · subst hw
          exact hp.crew (hduty _ rfl) ha₀
        · exact hp.crew ((hother hw).1 ha) haway
      obtain ⟨p', hp', hunit⟩ := (Ledger.extends_display l w₀ t₀).post hp
      exact ⟨p', ws, hp', hunit.symm ▸ hws, hmem⟩
    · by_cases hne : w = w₀
      · subst hne
        rw [Ledger.display, Table.getElem?_modify, if_pos rfl] at hw
        obtain ⟨p, -, rfl⟩ := Option.map_eq_some_iff.1 hw
        have hmem : .post w a' ∈ ds' := hnew (List.mem_singleton_self _)
        constructor
        · exact fun heq => ⟨a', hmem, ht₀.trans heq⟩
        · rintro ⟨a, ha, hshown⟩
          obtain rfl := Duty.post_unique (honce w) hmem ha
          exact ht₀.symm.trans hshown
      · rw [Ledger.display, Table.getElem?_modify_of_ne (Ne.symm hne)] at hw
        simp only [hp.current hw, hother hne]
  | @retire w₀ p₀ ws₀ hw₀ hws₀ =>
    refine ⟨honce, fun {w a} ha haway => ?_, fun {w p t} hw => ?_⟩
    · have hne : w ≠ w₀ := by
        rintro rfl
        obtain rfl := Duty.post_unique (honce w) ha (hnew (List.mem_singleton_self _))
        exact haway rfl
      have ha : .post w a ∈ ds := by
        rcases hof ha with ha | ha | ⟨hnone, -⟩
        · exact ha
        · exact absurd (Duty.post.inj (List.mem_singleton.1 ha)).1 hne
        · cases hnone
      obtain ⟨p, ws, hp, hws, hmem⟩ := hp.crew ha haway
      by_cases hu : p₀.unit = p.unit
      · rw [← hu, hws₀] at hws
        obtain rfl := Option.some.inj hws
        refine ⟨p, ws₀, hp, ?_, (List.mem_append.1 hmem).resolve_right (by simpa using hne)⟩
        rw [Ledger.setCrew, ← hu, Table.getElem?_modify_self hws₀]
      · exact ⟨p, ws, hp, (Table.getElem?_modify_of_ne hu _).trans hws, hmem⟩
    · rw [hp.current (show l.posts[w]? = some p from hw)]
      constructor
      · rintro ⟨a, ha, hshown⟩
        refine ⟨a, (hstay ha).resolve_right fun hd => ?_, hshown⟩
        obtain ⟨rfl, rfl⟩ := Duty.post.inj (Option.some.inj hd)
        cases hshown
      · rintro ⟨a, ha, hshown⟩
        rcases hof ha with ha | ha | ⟨hnone, -⟩
        · exact ⟨a, ha, hshown⟩
        · obtain ⟨rfl, rfl⟩ := Duty.post.inj (List.mem_singleton.1 ha)
          cases hshown
        · cases hnone
  | @hire u ws hws =>
    have hold {w : WorkerId} {a : Phase} (ha : .post w a ∈ ds) : .post w a ∈ ds' :=
      (hstay ha).resolve_right (Option.some_ne_none _ ·.symm)
    have hidle {w : WorkerId} {a : Phase} (ha : .post w a ∈ ds') :
        .post w a ∈ ds ∨ w = l.posts.size ∧ a = .idle := by
      rcases hof ha with ha | ha | ⟨hw, ha⟩
      · exact .inl ha
      · simp at ha
      · exact .inr ⟨(Option.some.inj hw).symm, ha⟩
    have hcrew {u' : UnitId} {ws' : List WorkerId} (hws' : l.crews[u']? = some ws') :
        ∃ ws'', (l.setCrew u (ws ++ [l.posts.size])).crews[u']? = some ws'' ∧ ws' ⊆ ws'' := by
      by_cases hu : u = u'
      · subst hu
        obtain rfl := Option.some.inj (hws.symm.trans hws')
        exact ⟨_, Table.getElem?_modify_self hws _, List.subset_append_left _ _⟩
      · exact ⟨ws', (Table.getElem?_modify_of_ne hu _).trans hws', fun _ h => h⟩
    refine ⟨honce, fun {w a} ha haway => ?_, fun {w p t} hw => ?_⟩
    · rcases hidle ha with ha | ⟨rfl, rfl⟩
      · obtain ⟨p, ws', hp, hws', hmem⟩ := hp.crew ha haway
        obtain ⟨ws'', hws'', hsub⟩ := hcrew hws'
        exact ⟨p, ws'', (Table.getElem?_add_of_lt (Table.lt_size_of_getElem? hp) _).trans hp, hws'',
          hsub hmem⟩
      · exact ⟨⟨u, none⟩, ws ++ [l.posts.size], Table.getElem?_add_self _ _,
          Table.getElem?_modify_self hws _, by simp⟩
    · rw [Table.getElem?_add] at hw
      split at hw
      · rename_i hsize
        obtain rfl := Option.some.inj hw
        refine iff_of_false (Option.some_ne_none _ ·.symm) ?_
        rintro ⟨a, ha, hshown⟩
        rcases hidle ha with ha | ⟨-, rfl⟩
        · exact absurd (hk _ ha).1 (by rw [hsize]; exact Nat.lt_irrefl _)
        · cases hshown
      · rename_i hsize
        rw [hp.current hw]
        constructor
        · rintro ⟨a, ha, hshown⟩
          exact ⟨a, hold ha, hshown⟩
        · rintro ⟨a, ha, hshown⟩
          rcases hidle ha with ha | ⟨heq, -⟩
          · exact ⟨a, ha, hshown⟩
          · exact absurd heq hsize

end Posted

namespace System

variable {s first : System} {b : Broker}

theorem posted_launch (hb : b.Fresh) : Posted (launch b).ledger (launch b).duties := by
  have hpost (w : WorkerId) : b.ledger.posts[w]? = none := by simp [hb.workers]
  refine ⟨fun w => by simp, fun {w a} h => ?_, fun {w p t} hw => ?_⟩
  · rw [duties_launch] at h
    exact absurd h (Multiset.notMem_zero _)
  · rw [ledger_launch, hpost] at hw
    cases hw

/-- In every state that a system can get into, workers are where the records say. -/
theorem Reachable.posted (hb : b.Fresh) (h : Reachable (launch b) s) : Posted s.ledger s.duties := by
  let both (s : System) : Prop := s.Lawful ∧ Posted s.ledger s.duties
  suffices both s from this.2
  refine h.invariant ⟨lawful_launch hb, posted_launch hb⟩ (fun _ hs hstep => ?_)
    (fun c n _ hs => ⟨hs.1.call c n, hs.2.shift hs.1.known (shift_call _ c n)⟩)
    fun o _ hs => ⟨hs.1.operate o, hs.2.shift hs.1.known (shift_operate _ o)⟩
  obtain ⟨t, a, rest, turn, -, -, -, -, hshift⟩ := hs.1.shift hstep
  exact ⟨hs.1.step hstep, hs.2.shift hs.1.known hshift⟩

end System

end JitBroker
