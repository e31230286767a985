import JitBroker.Proofs.Ledger.Turn

/-!
# What stays as it is

Records are never removed, and some of what they say is never taken back: a complete task stays
complete, a freed one freed, and a broker that is disabled stays disabled (`Ledger.Extends`). Hence
what a duty names once exists for good (`Duty.Known`), and so do the methods, units and workers
that records name (`Ledger.Sound`).
-/

namespace JitBroker

/-! ### What is never taken back -/

/-- The second task is the first one, later. -/
structure Task.Evolves (x x' : Task) : Prop where
  /-- The compile number is the same. -/
  compileId : x'.compileId = x.compileId
  /-- So is the method. -/
  method : x'.method = x.method
  /-- So is the entry. -/
  entryBci : x'.entryBci = x.entryBci
  /-- So is the tier. -/
  tier : x'.tier = x.tier
  /-- The requester waits or does not. -/
  blocking : x'.blocking = x.blocking
  /-- A complete task stays complete. -/
  complete : x.complete = true → x'.complete = true
  /-- A freed task stays freed. -/
  freed : x.freed = true → x'.freed = true
  /-- A stale task stays stale. -/
  stale : x.stale = true → x'.stale = true
  /-- The bell only rings. -/
  bell : x.bell ≤ x'.bell

theorem Task.Evolves.refl (x : Task) : x.Evolves x :=
  ⟨rfl, rfl, rfl, rfl, rfl, id, id, id, Nat.le_refl _⟩

theorem Task.Evolves.trans {x y z : Task} (h : x.Evolves y) (h' : y.Evolves z) : x.Evolves z where
  compileId := h'.compileId.trans h.compileId
  method := h'.method.trans h.method
  entryBci := h'.entryBci.trans h.entryBci
  tier := h'.tier.trans h.tier
  blocking := h'.blocking.trans h.blocking
  complete := h'.complete ∘ h.complete
  freed := h'.freed ∘ h.freed
  stale := h'.stale ∘ h.stale
  bell := h.bell.trans h'.bell

/-- The second ledger is the first one, later. -/
structure Ledger.Extends (l l' : Ledger) : Prop where
  /-- Tasks stay, and evolve. -/
  task : ∀ {t : Nat} {x : Task}, l.tasks[t]? = some x → ∃ x', l'.tasks[t]? = some x' ∧ x.Evolves x'
  /-- The units are the same. -/
  stocks : l'.stocks.size = l.stocks.size
  /-- Methods stay. -/
  claims : l.claims.size ≤ l'.claims.size
  /-- Workers stay, each in its unit. -/
  post : ∀ {w : Nat} {p : Post}, l.posts[w]? = some p → ∃ p', l'.posts[w]? = some p' ∧ p'.unit = p.unit
  /-- Compilation stays disabled. -/
  disabled : l.disabled = true → l'.disabled = true

namespace Ledger

variable {l l' l'' : Ledger}

theorem Extends.refl (l : Ledger) : l.Extends l where
  task h := ⟨_, h, .refl _⟩
  stocks := rfl
  claims := Nat.le_refl _
  post h := ⟨_, h, rfl⟩
  disabled := id

theorem Extends.trans (h : l.Extends l') (h' : l'.Extends l'') : l.Extends l'' where
  task hx := by
    obtain ⟨x', hx', hev⟩ := h.task hx
    obtain ⟨x'', hx'', hev'⟩ := h'.task hx'
    exact ⟨x'', hx'', hev.trans hev'⟩
  stocks := h'.stocks.trans h.stocks
  claims := h.claims.trans h'.claims
  post hp := by
    obtain ⟨p', hp', hu⟩ := h.post hp
    obtain ⟨p'', hp'', hu'⟩ := h'.post hp'
    exact ⟨p'', hp'', hu'.trans hu⟩
  disabled := h'.disabled ∘ h.disabled

theorem Extends.lt_tasks (h : l.Extends l') {t : TaskId} (ht : t < l.tasks.size) :
    t < l'.tasks.size := by
  obtain ⟨x, hx⟩ := Table.exists_getElem? ht
  obtain ⟨x', hx', -⟩ := h.task hx
  exact Table.lt_size_of_getElem? hx'

theorem Extends.lt_posts (h : l.Extends l') {w : WorkerId} (hw : w < l.posts.size) :
    w < l'.posts.size := by
  obtain ⟨p, hp⟩ := Table.exists_getElem? hw
  obtain ⟨p', hp', -⟩ := h.post hp
  exact Table.lt_size_of_getElem? hp'

theorem extends_modifyTask (l : Ledger) (t : TaskId) {f : Task → Task}
    (hf : ∀ x : Task, x.Evolves (f x)) : l.Extends (l.modifyTask t f) where
  task {t' x} hx := by
    by_cases ht : t = t'
    · subst ht
      exact ⟨f x, Table.getElem?_modify_self hx f, hf x⟩
    · exact ⟨x, (Table.getElem?_modify_of_ne ht f).trans hx, .refl x⟩
  stocks := rfl
  claims := Nat.le_refl _
  post h := ⟨_, h, rfl⟩
  disabled := id

theorem extends_setStock (l : Ledger) (u : UnitId) (st : Stock) : l.Extends (l.setStock u st) where
  task h := ⟨_, h, .refl _⟩
  stocks := Table.size_modify _ _ _
  claims := Nat.le_refl _
  post h := ⟨_, h, rfl⟩
  disabled := id

theorem extends_lock (l : Ledger) (u : UnitId) (v : Bool) : l.Extends (l.lock u v) where
  task h := ⟨_, h, .refl _⟩
  stocks := Table.size_modify _ _ _
  claims := Nat.le_refl _
  post h := ⟨_, h, rfl⟩
  disabled := id

theorem extends_claim (l : Ledger) (m : MethodId) (v : Bool) : l.Extends (l.claim m v) where
  task h := ⟨_, h, .refl _⟩
  stocks := rfl
  claims := Nat.le_of_eq (Table.size_modify _ _ _).symm
  post h := ⟨_, h, rfl⟩
  disabled := id

theorem extends_display (l : Ledger) (w : WorkerId) (t : Option TaskId) :
    l.Extends (l.display w t) where
  task h := ⟨_, h, .refl _⟩
  stocks := rfl
  claims := Nat.le_refl _
  post {w' p} hp := by
    by_cases hw : w = w'
    · subst hw
      exact ⟨_, Table.getElem?_modify_self hp _, rfl⟩
    · exact ⟨p, (Table.getElem?_modify_of_ne hw _).trans hp, rfl⟩
  disabled := id

theorem extends_setCrew (l : Ledger) (u : UnitId) (ws : List WorkerId) :
    l.Extends (l.setCrew u ws) where
  task h := ⟨_, h, .refl _⟩
  stocks := rfl
  claims := Nat.le_refl _
  post h := ⟨_, h, rfl⟩
  disabled := id

theorem extends_withdrawn {stale chosen : List TaskId} {tasks : Table Task}
    (h : Withdrawn l.tasks stale chosen tasks) : l.Extends { l with tasks := tasks } where
  task {t x} hx := by
    obtain ⟨un, hx'⟩ := h.task hx
    exact ⟨_, hx', rfl, rfl, rfl, rfl, rfl, id, id, fun h => by simp [h], Nat.le_refl _⟩
  stocks := rfl
  claims := Nat.le_refl _
  post h := ⟨_, h, rfl⟩
  disabled := id

end Ledger

open Ledger in
/-- An event takes nothing back. -/
theorem Event.extends {l l' : Ledger} {d : Option Duty} {ds : List Duty} {w : Option WorkerId}
    (h : Event l d ds w l') : l.Extends l' := by
  cases h with
  | know d => exact { Extends.refl l with claims := by simp }
  | enter _ _ | refuse _ | lookIn _ _ _ | lookOut _ _ _ => exact extends_lock _ _ _
  | claim _ | unmark _ | giveUp _ | release _ => exact extends_claim _ _ _
  | unclaim => exact (extends_lock _ _ _).trans (extends_claim _ _ _)
  | allocate hpool r id blocking now =>
    refine { Extends.refl l with task := fun {t x} hx => ⟨x, ?_, .refl x⟩ }
    exact (Table.getElem?_add_of_lt (Table.lt_size_of_getElem? hx) _).trans hx
  | stamp depth =>
    refine (extends_modifyTask l _ fun x => ?_).trans (extends_claim _ _ _)
    exact { Task.Evolves.refl x with }
  | append hx hst hlist slot =>
    refine (extends_setStock _ _ _).trans (extends_modifyTask _ _ fun x => ?_)
    exact { Task.Evolves.refl x with }
  | fallAsleep _ _ _ | findDisabled _ _ | wakeComplete _ _ | leave _ _ | publish _ =>
    exact extends_modifyTask _ _ fun x => { Task.Evolves.refl x with }
  | spoil => exact extends_modifyTask _ _ fun x => { Task.Evolves.refl x with }
  | @free t who =>
    have h := extends_modifyTask l t (f := fun x => { x with freed := true }) fun x =>
      { Task.Evolves.refl x with freed := fun _ => rfl }
    exact { h with }
  | ring hd hx hawaited =>
    exact extends_modifyTask _ _ fun x =>
      { Task.Evolves.refl x with complete := fun _ => rfl, bell := Nat.le_succ _ }
  | close hd hx hawaited =>
    exact extends_modifyTask _ _ fun x => { Task.Evolves.refl x with complete := fun _ => rfl }
  | wake => exact extends_modifyTask _ _ fun x => { Task.Evolves.refl x with bell := Nat.le_succ _ }
  | disable hopen => exact { Extends.refl l with disabled := fun _ => rfl }
  | drain _ _ _ _ htasks | fetch _ _ _ htasks | clean _ _ _ htasks _ =>
    exact (extends_setStock _ _ _).trans (extends_withdrawn htasks)
  | take | drop => exact extends_display _ _ _
  | retire _ _ => exact extends_setCrew _ _ _
  | @hire u ws hws =>
    refine (extends_setCrew l u (ws ++ [l.posts.size])).trans
      { Extends.refl _ with post := fun {w p} hp => ⟨p, ?_, rfl⟩ }
    exact (Table.getElem?_add_of_lt (Table.lt_size_of_getElem? hp) _).trans hp
  | _ => exact .refl l

/-! ### What is changed in a task, and by whom -/

/-- What a step with the given duty may change in a task. -/
structure Task.Touched (d : Option Duty) (t : TaskId) (x x' : Task) : Prop where
  /-- Who is to complete a task completes it. -/
  complete : x'.complete = x.complete ∨ d = some (.scrap t) ∨ d = some (.finish t)
  /-- Who is to free a task frees it. -/
  freed : x'.freed = x.freed ∨ d = some (.free t)
  /-- The result is written by a worker, or by whoever found the task stale. -/
  result : x'.result = x.result ∨ d = some (.spoil t) ∨ ∃ w, d = some (.post w (.closed t))
  /-- The number stays. -/
  compileId : x'.compileId = x.compileId

theorem Task.Touched.refl (d : Option Duty) (t : TaskId) (x : Task) : Touched d t x x :=
  ⟨.inl rfl, .inl rfl, .inl rfl, rfl⟩

/-- Changing one task touches the others not at all. -/
theorem Task.Touched.of_modify {tasks : Table Task} {d : Option Duty} {t₀ : TaskId} {f : Task → Task}
    (hf : ∀ x, Touched d t₀ x (f x)) {t : TaskId} {x : Task} (hx : tasks[t]? = some x) :
    ∃ x', (tasks.modify t₀ f)[t]? = some x' ∧ Touched d t x x' := by
  by_cases ht : t₀ = t
  · subst ht
    exact ⟨f x, Table.getElem?_modify_self hx f, hf x⟩
  · exact ⟨x, (Table.getElem?_modify_of_ne ht f).trans hx, .refl d t x⟩

namespace Event

variable {l l' : Ledger} {d : Option Duty} {new : List Duty} {w : Option WorkerId} {t : TaskId}
  {x x' : Task}

/-- An event changes in a task what its duty allows. -/
theorem touched (h : Event l d new w l') (hx : l.tasks[t]? = some x) :
    ∃ x', l'.tasks[t]? = some x' ∧ Task.Touched d t x x' := by
  have withdrawn {stale chosen : List TaskId} {tasks : Table Task} {d : Option Duty}
      (hw : Withdrawn l.tasks stale chosen tasks) :
      ∃ x', tasks[t]? = some x' ∧ Task.Touched d t x x' := by
    obtain ⟨un, hx'⟩ := hw.task hx
    exact ⟨_, hx', .inl rfl, .inl rfl, .inl rfl, rfl⟩
  cases h with
  | allocate hpool r id blocking now =>
    refine ⟨x, ?_, .refl _ t x⟩
    exact (Table.getElem?_add_of_lt (Table.lt_size_of_getElem? hx) _).trans hx
  | stamp _ | append _ _ _ _ | fallAsleep _ _ _ | findDisabled _ _ | wakeComplete _ _ | leave _ _
  | wake =>
    refine Task.Touched.of_modify (fun x => ?_) hx
    exact ⟨.inl rfl, .inl rfl, .inl rfl, rfl⟩
  | free who =>
    refine Task.Touched.of_modify (fun x => ?_) hx
    exact ⟨.inl rfl, .inr rfl, .inl rfl, rfl⟩
  | spoil =>
    refine Task.Touched.of_modify (fun x => ?_) hx
    exact ⟨.inl rfl, .inl rfl, .inr (.inl rfl), rfl⟩
  | ring hd _ _ =>
    refine Task.Touched.of_modify (fun x => ?_) hx
    exact ⟨.inr (hd.imp (congrArg some) (congrArg some)), .inl rfl, .inl rfl, rfl⟩
  | close hd _ _ =>
    refine Task.Touched.of_modify (fun x => ?_) hx
    exact ⟨.inr (hd.imp (congrArg some) (congrArg some)), .inl rfl, .inl rfl, rfl⟩
  | @publish w t₀ result =>
    refine Task.Touched.of_modify (fun x => ?_) hx
    exact ⟨.inl rfl, .inl rfl, .inr (.inr ⟨w, rfl⟩), rfl⟩
  | drain _ _ _ _ htasks | fetch _ _ _ htasks | clean _ _ _ htasks _ => exact withdrawn htasks
  | _ => exact ⟨x, hx, .refl _ t x⟩

/-- A new task is neither complete nor freed. -/
theorem open_of_new (h : Event l d new w l') (hx : l.tasks[t]? = none)
    (hx' : l'.tasks[t]? = some x') : x'.complete = false ∧ x'.freed = false := by
  have gone {tasks : Table Task} (hsize : tasks.size = l.tasks.size)
      (hx' : tasks[t]? = some x') : False := by
    have := Table.lt_size_of_getElem? hx'
    have := (Table.getElem?_eq_none_iff _ _).1 hx
    omega
  cases h with
  | allocate hpool r id blocking now =>
    rw [Table.getElem?_add, hx] at hx'
    split at hx'
    · obtain rfl := Option.some.inj hx'
      exact ⟨rfl, rfl⟩
    · cases hx'
  | drain _ _ _ _ htasks | fetch _ _ _ htasks | clean _ _ _ htasks _ =>
    exact (gone htasks.size hx').elim
  | stamp _ | append _ _ _ _ | fallAsleep _ _ _ | findDisabled _ _ | wakeComplete _ _ | leave _ _
  | wake | free _ | spoil | ring _ _ _ | close _ _ _ | publish _ =>
    exact (gone (Table.size_modify _ _ _) hx').elim
  | _ =>
    rw [show l.tasks[t]? = some x' from hx'] at hx
    cases hx

end Event

/-! ### What is named exists -/

/-- What a duty names exists. -/
def Duty.Known (l : Ledger) : Duty → Prop
  | .outside u m => u < l.stocks.size ∧ ∀ m' ∈ m, m' < l.claims.size
  | .desk u m _ => u < l.stocks.size ∧ m < l.claims.size
  | .bring u m t => u < l.stocks.size ∧ m < l.claims.size ∧ ∃ x, l.tasks[t]? = some x ∧ x.method = m
  | .attend u t => u < l.stocks.size ∧ t < l.tasks.size
  | .sleep t _ | .free t | .unmark t | .spoil t | .scrap t | .finish t => t < l.tasks.size
  | .drain u => u < l.stocks.size
  | .wake _ | .rouse => True
  | .nudge w => w < l.posts.size
  | .post w p => w < l.posts.size ∧ ∀ t ∈ p.task?, t < l.tasks.size

theorem Duty.Known.mono {l l' : Ledger} (h : l.Extends l') {d : Duty} (hd : d.Known l) :
    d.Known l' := by
  cases d with
  | outside u m => exact ⟨hd.1.trans_eq h.stocks.symm, fun m' hm => (hd.2 m' hm).trans_le h.claims⟩
  | desk u m stage => exact ⟨hd.1.trans_eq h.stocks.symm, hd.2.trans_le h.claims⟩
  | bring u m t =>
    obtain ⟨hu, hm, x, hx, rfl⟩ := hd
    obtain ⟨x', hx', hev⟩ := h.task hx
    exact ⟨hu.trans_eq h.stocks.symm, hm.trans_le h.claims, x', hx', hev.method⟩
  | attend u t => exact ⟨hd.1.trans_eq h.stocks.symm, h.lt_tasks hd.2⟩
  | sleep t bell => exact h.lt_tasks hd
  | free t => exact h.lt_tasks hd
  | unmark t => exact h.lt_tasks hd
  | spoil t => exact h.lt_tasks hd
  | scrap t => exact h.lt_tasks hd
  | finish t => exact h.lt_tasks hd
  | wake t => trivial
  | drain u => exact Nat.lt_of_lt_of_eq hd h.stocks.symm
  | rouse => trivial
  | nudge w => exact h.lt_posts hd
  | post w p => exact ⟨h.lt_posts hd.1, fun t ht => h.lt_tasks (hd.2 t ht)⟩

theorem Duty.known_discard {l : Ledger} {ts : List TaskId} (h : ∀ t ∈ ts, t < l.tasks.size) :
    ∀ d ∈ ts.flatMap discard, d.Known l := by
  intro d hd
  obtain ⟨t, ht, rfl | rfl | rfl⟩ := mem_discard.1 hd <;> exact h t ht

namespace Ledger.Sound

variable {l : Ledger}

theorem lock (h : l.Sound) (u : UnitId) (v : Bool) : (l.lock u v).Sound := by
  have old {u' : Nat} {st : Stock} (hst : (l.lock u v).stocks[u']? = some st) :
      ∃ st', l.stocks[u']? = some st' ∧ st'.list = st.list := by
    rw [Ledger.lock, Table.getElem?_modify] at hst
    split at hst
    · obtain ⟨st', hst', rfl⟩ := Option.map_eq_some_iff.1 hst
      exact ⟨st', hst', rfl⟩
    · exact ⟨st, hst, rfl⟩
  refine { h with list := fun hst => ?_, queued := fun hst => ?_, unit := fun hp => ?_, crews := ?_ }
  · obtain ⟨st', hst', heq⟩ := old hst
    exact heq ▸ h.list hst'
  · obtain ⟨st', hst', heq⟩ := old hst
    exact heq ▸ h.queued hst'
  · exact (h.unit hp).trans_eq (Table.size_modify _ _ _).symm
  · exact h.crews.trans (Table.size_modify _ _ _).symm

theorem setStock (h : l.Sound) {u : UnitId} {st : Stock} (hlist : st.list.Sound)
    (hqueued : ∀ t ∈ st.list.toList, t < l.tasks.size) : (l.setStock u st).Sound := by
  have old {u' : Nat} {st' : Stock} (hst : (l.setStock u st).stocks[u']? = some st') :
      st' = st ∨ l.stocks[u']? = some st' := by
    rw [Ledger.setStock, Table.getElem?_modify] at hst
    split at hst
    · obtain ⟨_, _, rfl⟩ := Option.map_eq_some_iff.1 hst
      exact .inl rfl
    · exact .inr hst
  refine { h with list := fun hst => ?_, queued := fun hst => ?_, unit := fun hp => ?_, crews := ?_ }
  · rcases old hst with rfl | hst
    · exact hlist
    · exact h.list hst
  · rcases old hst with rfl | hst
    · exact hqueued
    · exact h.queued hst
  · exact (h.unit hp).trans_eq (Table.size_modify _ _ _).symm
  · exact h.crews.trans (Table.size_modify _ _ _).symm

theorem claim (h : l.Sound) (m : MethodId) (v : Bool) : (l.claim m v).Sound where
  list := h.list
  queued := h.queued
  method hx := (h.method hx).trans_eq (Table.size_modify _ _ _).symm
  unit := h.unit
  crews := h.crews
  worker := h.worker

theorem display (h : l.Sound) (w : WorkerId) (t : Option TaskId) : (l.display w t).Sound := by
  refine { h with unit := fun hp => ?_, worker := fun hws w' hw' => ?_ }
  · rw [Ledger.display, Table.getElem?_modify] at hp
    split at hp
    · obtain ⟨p', hp', rfl⟩ := Option.map_eq_some_iff.1 hp
      exact (h.unit hp' : p'.unit < _)
    · exact h.unit hp
  · exact (h.worker hws w' hw').trans_eq (Table.size_modify _ _ _).symm

theorem setCrew (h : l.Sound) {u : UnitId} {ws : List WorkerId}
    (hws : ∀ w ∈ ws, w < l.posts.size) : (l.setCrew u ws).Sound := by
  refine { h with crews := (Table.size_modify _ _ _).trans h.crews, worker := fun hws' => ?_ }
  rw [Ledger.setCrew, Table.getElem?_modify] at hws'
  split at hws'
  · obtain ⟨_, _, rfl⟩ := Option.map_eq_some_iff.1 hws'
    exact hws
  · exact h.worker hws'

/-- The tasks may be replaced by as many of the same methods. -/
theorem withTasks {tasks : Table Task} (h : l.Sound) (hsize : tasks.size = l.tasks.size)
    (hmethod : ∀ {t : Nat} {x : Task}, l.tasks[t]? = some x →
      ∃ x', tasks[t]? = some x' ∧ x'.method = x.method) :
    Ledger.Sound { l with tasks := tasks } := by
  refine { h with queued := fun hst t ht => ?_, method := fun hx => ?_ }
  · exact (h.queued hst t ht).trans_eq hsize.symm
  · obtain ⟨y, hy⟩ := Table.exists_getElem? (Nat.lt_of_lt_of_eq (Table.lt_size_of_getElem? hx) hsize)
    obtain ⟨x', hx', heq⟩ := hmethod hy
    rw [hx, Option.some.injEq] at hx'
    subst hx'
    rw [heq]
    exact h.method hy

theorem modifyTask (h : l.Sound) (t : TaskId) {f : Task → Task}
    (hf : ∀ x, (f x).method = x.method) : (l.modifyTask t f).Sound := by
  refine h.withTasks (Table.size_modify _ _ _) fun {t' x} hx => ?_
  by_cases ht : t = t'
  · subst ht
    exact ⟨f x, Table.getElem?_modify_self hx f, hf x⟩
  · exact ⟨x, (Table.getElem?_modify_of_ne ht f).trans hx, rfl⟩

theorem withdrawn {stale chosen : List TaskId} {tasks : Table Task} (h : l.Sound)
    (hw : Withdrawn l.tasks stale chosen tasks) : Ledger.Sound { l with tasks := tasks } :=
  h.withTasks hw.size fun hx => by
    obtain ⟨un, hx'⟩ := hw.task hx
    exact ⟨_, hx', rfl⟩

end Ledger.Sound

namespace Event

variable {l l' : Ledger} {d : Option Duty} {ds : List Duty} {w : Option WorkerId}

/-- An event keeps the ledger sound. -/
theorem sound (h : Event l d ds w l') (hs : l.Sound) (hk : ∀ d' ∈ d, d'.Known l) : l'.Sound := by
  cases h with
  | know d =>
    exact { hs with method := fun hx => by simpa using Nat.lt_succ_of_lt (hs.method hx) }
  | enter _ _ | refuse _ | lookIn _ _ _ | lookOut _ _ _ => exact hs.lock _ _
  | claim _ | unmark _ | giveUp _ | release _ => exact hs.claim _ _
  | unclaim => exact (hs.lock _ _).claim _ _
  | allocate hpool r id blocking now =>
    refine { hs with queued := fun hst t ht => ?_, method := fun hx => ?_ }
    · simpa using Nat.lt_succ_of_lt (hs.queued hst t ht)
    · rw [Table.getElem?_add] at hx
      split at hx
      · obtain rfl := Option.some.inj hx
        exact (hk _ rfl).2
      · exact hs.method hx
  | stamp depth => exact (hs.modifyTask _ fun _ => by rfl).claim _ _
  | append hx hst hlist slot =>
    refine (hs.setStock hlist.sound fun t ht => ?_).modifyTask _ fun _ => by rfl
    rw [hlist.toList_eq, List.mem_append, List.mem_singleton] at ht
    rcases ht with ht | rfl
    · exact hs.queued hst t ht
    · exact Table.lt_size_of_getElem? hx
  | fallAsleep _ _ _ | findDisabled _ _ | wakeComplete _ _ | leave _ _ | publish _ | spoil
  | ring _ _ _ | close _ _ _ | wake => exact hs.modifyTask _ fun _ => by rfl
  | @free t who => 
    have := hs.modifyTask t (f := fun x => { x with freed := true }) fun _ => by rfl
    exact { this with }
  | disable hopen => exact { hs with }
  | drain hst _ hlist _ htasks | fetch _ hst hlist htasks | clean _ hst hlist htasks _ =>
    refine (hs.setStock hlist.sound fun t ht => ?_).withdrawn htasks
    exact hs.queued hst t (hlist.perm.symm.subset (List.mem_append_right _ ht))
  | take | drop => exact hs.display _ _
  | retire hp hws => exact hs.setCrew fun w hw => hs.worker hws w (List.mem_append_left _ hw)
  | @hire u ws hws =>
    have hcrew : ∀ w ∈ ws ++ [l.posts.size], w < l.posts.size + 1 := by
      intro w hw
      rcases List.mem_append.1 hw with hw | hw
      · exact Nat.lt_succ_of_lt (hs.worker hws w hw)
      · exact Nat.lt_succ_of_le (Nat.le_of_eq (List.mem_singleton.1 hw))
    refine { hs with unit := fun hp => ?_, crews := ?_, worker := fun hws' w hw => ?_ }
    · rw [Table.getElem?_add] at hp
      split at hp
      · obtain rfl := Option.some.inj hp
        exact (Table.lt_size_of_getElem? hws).trans_eq hs.crews
      · exact hs.unit hp
    · exact (Table.size_modify _ _ _).trans hs.crews
    · rw [Table.size_add]
      rw [Ledger.setCrew, Table.getElem?_modify] at hws'
      split at hws'
      · obtain ⟨_, _, rfl⟩ := Option.map_eq_some_iff.1 hws'
        exact hcrew w hw
      · exact Nat.lt_succ_of_lt (hs.worker hws' w hw)
  | _ => exact hs

/-- The duties that an event brings name what exists. -/
theorem known (h : Event l d ds w l') (hs : l.Sound) (hk : ∀ d' ∈ d, d'.Known l) :
    ∀ d' ∈ ds, d'.Known l' := by
  have hext := h.extends
  have old (d' : Duty) (hd' : d' ∈ d) : d'.Known l' := (hk d' hd').mono hext
  have hqueued {u : Nat} {st : Stock} {ts : List TaskId} {list : TaskList}
      (hst : l.stocks[u]? = some st) (hlist : st.list.Sheds ts list) :
      ∀ t ∈ ts, t < l'.tasks.size := fun t ht =>
    hext.lt_tasks (hs.queued hst t (hlist.perm.symm.subset (List.mem_append_left _ ht)))
  cases h with
  | plain d | know d =>
    intro d' hd'
    exact old d' (Option.mem_toList.1 hd')
  | arrive hu => exact List.forall_mem_singleton.2 ⟨hu, by simp⟩
  | name hm => exact List.forall_mem_singleton.2 ⟨(old _ rfl).1, by simpa using hm⟩
  | enter _ _ =>
    obtain ⟨hu, hm⟩ := old _ rfl
    exact List.forall_mem_singleton.2 ⟨hu, hm _ rfl⟩
  | pass _ | claim _ | stamp _ | sleepOn _ _ _ | wakeComplete _ _ =>
    have h := old _ rfl
    exact List.forall_mem_singleton.2 h
  | allocate hpool r id blocking now =>
    obtain ⟨hu, hm⟩ := old _ rfl
    exact List.forall_mem_singleton.2 ⟨hu, hm, _, Table.getElem?_add_self _ _, rfl⟩
  | append hx hst hlist slot =>
    obtain ⟨hu, -, x, hx, -⟩ := old _ rfl
    split
    · exact List.forall_mem_singleton.2 ⟨hu, Table.lt_size_of_getElem? hx⟩
    · exact List.forall_mem_nil _
  | fallAsleep _ _ _ | findComplete _ _ => exact List.forall_mem_singleton.2 (old _ rfl).2
  | close hd hx hawaited =>
    exact List.forall_mem_singleton.2 (hext.lt_tasks (Table.lt_size_of_getElem? hx))
  | disable hopen =>
    intro d' hd'
    rcases List.mem_append.1 hd' with hd' | hd'
    · obtain ⟨u, hu, rfl⟩ := List.mem_map.1 hd'
      exact List.mem_range.1 hu
    · rw [List.mem_singleton.1 hd']
      trivial
  | drain hst _ hlist _ htasks => exact Duty.known_discard (hqueued hst hlist)
  | rouse =>
    intro d' hd'
    obtain ⟨w, hw, rfl⟩ := List.mem_map.1 hd'
    obtain ⟨ws, hws, hw⟩ := List.mem_flatten.1 hw
    obtain ⟨u, hu⟩ := Table.mem_toList_iff.1 hws
    exact hs.worker hu w hw
  | nudge hp =>
    intro d' hd'
    obtain ⟨t, -, rfl⟩ := List.mem_map.1 hd'
    trivial
  | lookOut hp ha ha' =>
    refine List.forall_mem_singleton.2 ⟨(old _ rfl).1, ?_⟩
    rcases ha' with rfl | rfl <;> exact fun _ h => absurd h (by simp [Phase.task?])
  | fetch hp hst hlist htasks =>
    refine List.forall_mem_append.2 ⟨Duty.known_discard fun t ht => ?_, ?_⟩
    · exact hqueued hst hlist t (List.mem_append_left _ ht)
    · refine List.forall_mem_singleton.2 ⟨(old _ rfl).1, fun t ht => ?_⟩
      obtain rfl := Option.some.inj ht
      exact hqueued hst hlist _ (List.mem_append_right _ (List.mem_singleton_self _))
  | clean hp hst hlist htasks ha =>
    refine List.forall_mem_append.2 ⟨Duty.known_discard (hqueued hst hlist), ?_⟩
    refine List.forall_mem_singleton.2 ⟨(old _ rfl).1, ?_⟩
    rcases ha with ⟨rfl, -⟩ | ⟨rfl, -⟩ <;> exact fun _ h => absurd h (by simp [Phase.task?])
  | judge ha =>
    have h := old _ rfl
    rcases ha with rfl | rfl <;> exact List.forall_mem_singleton.2 h
  | publish result =>
    obtain ⟨hw, ht⟩ := old _ rfl
    refine List.forall_mem_cons.2 ⟨ht _ rfl, List.forall_mem_singleton.2 ⟨hw, ?_⟩⟩
    exact fun _ h => absurd h (by simp [Phase.task?])
  | take | compile _ | giveUp _ | drop | release _ | lookIn _ _ _ | stay _ | retire _ _ | desert =>
    have h := old _ rfl
    exact List.forall_mem_singleton.2 h
  | _ => exact List.forall_mem_nil _

/-- A worker that is hired is on record. -/
theorem lt_of_hired (h : Event l d ds w l') : ∀ w' ∈ w, w' < l'.posts.size := by
  cases h with
  | hire hws =>
    intro w' hw'
    obtain rfl := Option.some.inj hw'
    simp
  | _ => exact fun _ h => absurd h (by simp)

end Event

/-- After an event, all pending duties still name what exists. -/
theorem Shift.known {l l' : Ledger} {ds ds' : Multiset Duty} {d : Option Duty} {new : List Duty}
    {w : Option WorkerId} (h : Shift l ds d new w l' ds') (hs : l.Sound)
    (hk : ∀ d ∈ ds, d.Known l) : ∀ d ∈ ds', d.Known l' := by
  intro d' hd'
  rcases h.of_mem hd' with hd' | hd' | ⟨w', hw', rfl⟩
  · exact (hk d' hd').mono h.event.extends
  · exact h.event.known hs (fun d' hd' => hk d' (h.mem d' hd')) d' hd'
  · exact ⟨h.event.lt_of_hired w' hw', fun _ h => absurd h (by simp [Phase.task?])⟩

end JitBroker
