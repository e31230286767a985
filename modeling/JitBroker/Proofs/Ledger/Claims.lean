import JitBroker.Proofs.Ledger.Locks

/-!
# Who has claimed a method

The claim on a method is one mark. It stands for whoever has it: a request from its claim to the
arrival of its task, the task while it is in a queue, a worker until it gives the claim back, or
whoever is to give back the claim of a stale task. As long as there is one of them if the method is
claimed, and none if it is not (`Claimed`), a method has one task at a time.

Every event keeps this up but one (`Claimed.shift`): a worker that finds that jobs are no longer
taken gives the claim back and still has the task. When it gives the claim back for the second
time, at the end, the method may have been claimed by somebody else.
-/

namespace JitBroker

/-- The task for which a worker in this phase has a claim. -/
def Phase.claimed? : Phase → Option TaskId
  | .hold t | .shown t | .inside t | .after t | .closing t => some t
  | .closed _ | .idle | .search | .pick | .away => none

namespace Ledger

/-- Whether a task is for a certain method. -/
def isFor (l : Ledger) (m : MethodId) (t : TaskId) : Bool :=
  decide (l.tasks[t]?.map (·.method) = some m)

/-- How many tasks of some kind are in the queues. -/
def waiting (l : Ledger) (p : TaskId → Bool) : Nat :=
  l.stocks.total fun st => st.list.toList.countP p

/-- Whether a method is claimed. -/
def claimed (l : Ledger) (m : MethodId) : Bool := decide (l.claims[m]? = some true)

end Ledger

/-- Whether a duty is one of somebody who has the claim on a method. -/
def Duty.claims (l : Ledger) (m : MethodId) : Duty → Bool
  | .desk _ m' .claimed | .bring _ m' _ => decide (m' = m)
  | .unmark t => l.isFor m t
  | .post _ a => a.claimed?.any (l.isFor m)
  | _ => false

/-- How many have the claim on a method. -/
def claimants (l : Ledger) (ds : Multiset Duty) (m : MethodId) : Nat :=
  l.waiting (l.isFor m) + ds.countP (·.claims l m)

/-- A method is claimed if and only if somebody has the claim, and nobody else does. -/
def Claimed (l : Ledger) (ds : Multiset Duty) : Prop :=
  ∀ m, claimants l ds m = (l.claimed m).toNat

variable {l l' : Ledger} {ds ds' : Multiset Duty} {d : Option Duty} {new : List Duty}
  {w : Option WorkerId} {m : MethodId} {t : TaskId} {x : Task}

namespace Ledger

theorem isFor_of_some (hx : l.tasks[t]? = some x) : l.isFor m t = decide (x.method = m) := by
  simp [isFor, hx]

/-- The tasks in the queues, as a whole. -/
theorem waiting_eq_countP (l : Ledger) (p : TaskId → Bool) :
    l.waiting p = Multiset.countP (fun t => p t = true)
      (↑(l.stocks.toList.flatMap (·.list.toList)) : Multiset TaskId) := by
  rw [Multiset.coe_countP, List.countP_flatMap, waiting, Table.total]
  simp [Function.comp_def]

/-- What a task is for does not depend on when it is looked at. -/
theorem isFor_mono (h : l.Extends l') (ht : t < l.tasks.size) : l'.isFor m t = l.isFor m t := by
  obtain ⟨x, hx⟩ := Table.exists_getElem? ht
  obtain ⟨x', hx', hev⟩ := h.task hx
  rw [isFor_of_some hx, isFor_of_some hx', hev.method]

/-- Of the tasks in the queues, only what is said of those that exist matters. -/
theorem waiting_congr (hs : l.Sound) {p q : TaskId → Bool} (h : ∀ t < l.tasks.size, p t = q t) :
    l.waiting p = l.waiting q :=
  Table.total_congr fun _ _ hst => List.countP_congr fun t ht => by rw [h t (hs.queued hst t ht)]

/-- If the queues stay as they are, so do the tasks in them that are for a method. -/
theorem waiting_mono (hs : l.Sound) (h : l.Extends l')
    (hwait : ∀ p, l'.waiting p = l.waiting p) :
    l'.waiting (l'.isFor m) = l.waiting (l.isFor m) :=
  (hwait _).trans (waiting_congr hs fun _ ht => isFor_mono h ht)

theorem waiting_of_stocks (hs : l.Sound) (h : l.Extends l') (hstocks : l'.stocks = l.stocks) :
    l'.waiting (l'.isFor m) = l.waiting (l.isFor m) :=
  waiting_mono hs h fun p =>
    congrArg (fun stocks => stocks.total fun st => st.list.toList.countP p) hstocks

theorem waiting_lock (l : Ledger) (u : UnitId) (v : Bool) (p : TaskId → Bool) :
    (l.lock u v).waiting p = l.waiting p :=
  Table.total_modify_of_eq (fun _ => by rfl) _ _

/-- Nor does it matter who has the lock of a queue. -/
theorem waiting_of_lock (hs : l.Sound) (h : l.Extends l') {u : UnitId} {v : Bool}
    (hstocks : l'.stocks = (l.lock u v).stocks) :
    l'.waiting (l'.isFor m) = l.waiting (l.isFor m) :=
  waiting_mono hs h fun p => (congrArg (fun stocks => stocks.total fun st =>
    st.list.toList.countP p) hstocks).trans (l.waiting_lock u v p)

/-- Tasks that a queue sheds are not in it any more. -/
theorem waiting_sheds {u : UnitId} {st : Stock} {ts : List TaskId} {list : TaskList}
    (hst : l.stocks[u]? = some st) (hlist : st.list.Sheds ts list) (added : Nat) (locked : Bool)
    (p : TaskId → Bool) :
    (l.setStock u ⟨list, added, locked⟩).waiting p + ts.countP p = l.waiting p := by
  have htotal : (l.setStock u ⟨list, added, locked⟩).waiting p + st.list.toList.countP p =
      l.waiting p + list.toList.countP p := Table.total_modify hst _ _
  have hperm := hlist.perm.countP_eq p
  rw [List.countP_append] at hperm
  omega

/-- Tasks that a queue sheds are for the methods that they were for. -/
theorem waiting_shed (hs : l.Sound) (h : l.Extends l') {u : UnitId} {st : Stock} {ts : List TaskId}
    {list : TaskList} {added : Nat} {locked : Bool} (hst : l.stocks[u]? = some st)
    (hlist : st.list.Sheds ts list)
    (hstocks : l'.stocks = (l.setStock u ⟨list, added, locked⟩).stocks) :
    ts.countP (l'.isFor m) + l'.waiting (l'.isFor m) = l.waiting (l.isFor m) := by
  have hsheds := waiting_sheds hst hlist added locked (l'.isFor m)
  rw [waiting, ← hstocks] at hsheds
  rw [waiting, Nat.add_comm, hsheds, waiting_congr hs fun _ ht => isFor_mono h ht]

/-- A task that a queue gains is one more in it. -/
theorem waiting_gains {u : UnitId} {st : Stock} {list : TaskList} (hst : l.stocks[u]? = some st)
    (hlist : st.list.Gains t list) (added : Nat) (locked : Bool) (p : TaskId → Bool) :
    (l.setStock u ⟨list, added, locked⟩).waiting p = l.waiting p + (p t).toNat := by
  have htotal : (l.setStock u ⟨list, added, locked⟩).waiting p + st.list.toList.countP p =
      l.waiting p + list.toList.countP p := Table.total_modify hst _ _
  have hone : [t].countP p = (p t).toNat := by cases hp : p t <;> simp [hp]
  rw [hlist.toList_eq, List.countP_append, hone] at htotal
  omega

theorem claimed_claim (hm : m < l.claims.size) (v : Bool) : (l.claim m v).claimed m = v := by
  obtain ⟨y, hy⟩ := Table.exists_getElem? hm
  simp [claimed, claim, Table.getElem?_modify_self hy]

theorem claimed_claim_false (l : Ledger) (m : MethodId) : (l.claim m false).claimed m = false := by
  simp [claimed, claim, Table.getElem?_modify]

theorem claimed_claim_of_ne {m' : MethodId} (h : m' ≠ m) (v : Bool) :
    (l.claim m' v).claimed m = l.claimed m := by
  rw [claimed, claim, Table.getElem?_modify_of_ne h, claimed]

/-- Giving back a claim that is not there changes nothing. -/
theorem claim_eq_self (hm : m < l.claims.size) (h : l.claimed m = false) : l.claim m false = l := by
  obtain ⟨v, hv⟩ := Table.exists_getElem? hm
  obtain rfl : v = false := by simpa [claimed, hv] using h
  rw [claim, Table.modify_const hv]

/-- Nobody has claimed a method that has just become known. -/
theorem claimed_know (l : Ledger) (m : MethodId) :
    Ledger.claimed { l with claims := l.claims.add false } m = l.claimed m := by
  simp only [claimed, Table.getElem?_add]
  split
  · rename_i hm
    rw [(Table.getElem?_eq_none_iff _ _).2 (Nat.le_of_eq hm.symm)]
    rfl
  · rfl

end Ledger

namespace Duty

/-- Who has a claim does not depend on when it is looked at. -/
theorem claims_mono (h : l.Extends l') {d : Duty} (hd : d.Known l) : d.claims l' m = d.claims l m := by
  cases d with
  | unmark t => exact Ledger.isFor_mono h hd
  | post w a =>
    have ht := hd.2
    cases a <;> simp_all [claims, Phase.claimed?, Phase.task?, Ledger.isFor_mono h]
  | desk u m' stage => cases stage <;> rfl
  | _ => rfl

theorem countP_claims_mono (h : l.Extends l') {new : List Duty} (hk : ∀ d ∈ new, d.Known l) :
    new.countP (·.claims l' m) = new.countP (·.claims l m) :=
  List.countP_congr fun d hd => by rw [claims_mono h (hk d hd)]

/-- Of a stale task, one has the claim. -/
theorem countP_claims_discard (l : Ledger) (m : MethodId) (ts : List TaskId) :
    (ts.flatMap discard).countP (·.claims l m) = ts.countP (l.isFor m) := by
  induction ts with
  | nil => rfl
  | cons t ts ih =>
    rw [List.flatMap_cons, List.countP_append, ih, List.countP_cons]
    cases ht : l.isFor m t <;> simp [discard, claims, ht, Nat.add_comm]

end Duty

/-! ### Events -/

/-- What may become of a claim, from `v` to `v'`, and of the number of those who have it. -/
def Tenure (v v' : Bool) (n n' : Nat) : Prop :=
  v' = v ∧ n' = n ∨ v = false ∧ v' = true ∧ n' = n + 1 ∨ v' = false ∧ n = n' + 1 ∨
    v' = true ∧ 0 < n ∧ n' = n

namespace Tenure

/-- The claim stays, and so does the number of those who have it. -/
theorem of_same (hs : l.Sound) (h : l.Extends l') (hclaims : l'.claims = l.claims)
    (hstocks : l'.stocks = l.stocks)
    (hcount : new.countP (·.claims l' m) = d.toList.countP (·.claims l m)) :
    Tenure (l.claimed m) (l'.claimed m) (d.toList.countP (·.claims l m) + l.waiting (l.isFor m))
      (new.countP (·.claims l' m) + l'.waiting (l'.isFor m)) :=
  .inl ⟨by rw [Ledger.claimed, hclaims, Ledger.claimed],
    by rw [hcount, Ledger.waiting_of_stocks hs h hstocks]⟩

/-- So it is in particular if nobody has the claim by the duties. -/
theorem of_none (hs : l.Sound) (h : l.Extends l') (hclaims : l'.claims = l.claims)
    (hstocks : l'.stocks = l.stocks) (hnew : new.countP (·.claims l' m) = 0)
    (hd : d.toList.countP (·.claims l m) = 0) :
    Tenure (l.claimed m) (l'.claimed m) (d.toList.countP (·.claims l m) + l.waiting (l.isFor m))
      (new.countP (·.claims l' m) + l'.waiting (l'.isFor m)) :=
  .of_same hs h hclaims hstocks (hnew.trans hd.symm)

/-- One claim is made, or given back, or set again; the queues stay as they are. -/
theorem of_claim {m' : MethodId} {v : Bool} {k : Ledger} (heq : l' = k.claim m' v)
    (hclaims : k.claims = l.claims) (hm' : m' < l.claims.size)
    (hwait : l'.waiting (l'.isFor m) = l.waiting (l.isFor m))
    (hother : m' ≠ m → new.countP (·.claims l' m) = d.toList.countP (·.claims l m))
    (hself : m' = m → Tenure (l.claimed m) v
      (d.toList.countP (·.claims l m) + l.waiting (l.isFor m))
      (new.countP (·.claims l' m) + l.waiting (l.isFor m))) :
    Tenure (l.claimed m) (l'.claimed m) (d.toList.countP (·.claims l m) + l.waiting (l.isFor m))
      (new.countP (·.claims l' m) + l'.waiting (l'.isFor m)) := by
  rw [hwait]
  by_cases hm : m' = m
  · have hv : l'.claimed m = v := by rw [heq, ← hm, Ledger.claimed_claim (hclaims ▸ hm')]
    exact hv ▸ hself hm
  · refine .inl ⟨?_, by rw [hother hm]⟩
    rw [heq, Ledger.claimed_claim_of_ne hm, Ledger.claimed, hclaims, Ledger.claimed]

end Tenure

/-- An event makes a claim on a method that is not claimed, or gives back one that its duty has, or
passes claims on; unless a worker gives up. -/
theorem Event.tenure (h : Event l d new w l') (hs : l.Sound) (hk : ∀ d' ∈ d, d'.Known l)
    (hkeep : ∀ w t, d = some (.post w (.shown t)) → l'.claims = l.claims) (m : MethodId) :
    Tenure (l.claimed m) (l'.claimed m) (d.toList.countP (·.claims l m) + l.waiting (l.isFor m))
      (new.countP (·.claims l' m) + l'.waiting (l'.isFor m)) := by
  have hext := h.extends
  have hduty : d.toList.countP (·.claims l' m) = d.toList.countP (·.claims l m) :=
    Duty.countP_claims_mono hext fun d' hd' => hk d' (Option.mem_toList.1 hd')
  cases h with
  | plain d => exact .of_same hs hext rfl rfl hduty
  | know d =>
    refine .inl ⟨l.claimed_know m, ?_⟩
    rw [hduty, Ledger.waiting_of_stocks hs hext rfl]
  | enter _ _ | lookIn _ _ _ => exact .inl ⟨rfl, by rw [Ledger.waiting_of_lock hs hext rfl]; rfl⟩
  | lookOut hp ha ha' =>
    refine .inl ⟨rfl, ?_⟩
    rw [Ledger.waiting_of_lock hs hext rfl]
    rcases ha with rfl | rfl <;> rcases ha' with rfl | rfl <;> rfl
  | @refuse u m' stage hstage =>
    refine .inl ⟨rfl, ?_⟩
    rw [Ledger.waiting_of_lock hs hext rfl]
    cases stage with
    | claimed => exact absurd rfl hstage
    | _ => rfl
  | @claim u m' hopen =>
    refine .of_claim (k := l) rfl rfl (hk _ rfl).2 (Ledger.waiting_of_stocks hs hext rfl)
      (fun hm => ?_) ?_
    · simp [Duty.claims, hm]
    · rintro rfl
      refine .inr (.inl ⟨by simp [Ledger.claimed, hopen], rfl, ?_⟩)
      simp [Duty.claims, Nat.add_comm]
  | @unclaim u m' =>
    refine .of_claim (k := l.lock u false) rfl rfl (hk _ rfl).2
      (Ledger.waiting_of_lock hs hext rfl) (fun hm => ?_) ?_
    · simp [Duty.claims, hm]
    · rintro rfl
      refine .inr (.inr (.inl ⟨rfl, ?_⟩))
      simp [Duty.claims, Nat.add_comm]
  | @stamp u m' t depth =>
    refine .of_claim (k := l.modifyTask t _) rfl rfl (hk _ rfl).2.1
      (Ledger.waiting_of_stocks hs hext rfl) (fun hm => ?_) ?_
    · simp [Duty.claims]
    · rintro rfl
      refine .inr (.inr (.inr ⟨rfl, ?_, rfl⟩))
      simp only [Option.toList_some, List.countP_singleton, Duty.claims, decide_true, if_true]
      omega
  | @append u m' t x st list hx hst hlist slot =>
    obtain ⟨-, -, y, hy, rfl⟩ := hk _ rfl
    have hnew : (if x.blocking then [Duty.attend u t] else []).countP
        (·.claims ((l.setStock u ⟨list, st.added + 1, false⟩).modifyTask t fun x =>
          { x with slot := some slot }) m) = 0 := by
      split <;> rfl
    refine .inl ⟨rfl, ?_⟩
    rw [hnew, Nat.zero_add]
    refine (Ledger.waiting_gains hst hlist _ _ _).trans ?_
    rw [Ledger.waiting_congr hs fun _ ht => Ledger.isFor_mono hext ht,
      Ledger.isFor_mono hext (Table.lt_size_of_getElem? hx), Ledger.isFor_of_some hy]
    by_cases hm : y.method = m <;> simp [Duty.claims, hm, Nat.add_comm]
  | @unmark t x hx =>
    refine .of_claim (k := l) rfl rfl (hs.method hx) (Ledger.waiting_of_stocks hs hext rfl)
      (fun hm => ?_) ?_
    · simp [Duty.claims, Ledger.isFor_of_some hx, hm]
    · rintro rfl
      refine .inr (.inr (.inl ⟨rfl, ?_⟩))
      simp [Duty.claims, Ledger.isFor_of_some hx, Nat.add_comm]
  | @release w t x hx =>
    refine .of_claim (k := l) rfl rfl (hs.method hx) (Ledger.waiting_of_stocks hs hext rfl)
      (fun hm => ?_) ?_
    · simp [Duty.claims, Phase.claimed?, Ledger.isFor_of_some hx, hm]
    · rintro rfl
      refine .inr (.inr (.inl ⟨rfl, ?_⟩))
      simp [Duty.claims, Phase.claimed?, Ledger.isFor_of_some hx, Nat.add_comm]
  | @giveUp w t x hx =>
    refine .of_same hs hext (hkeep w t rfl) rfl ?_
    have ht := Ledger.isFor_mono (m := m) hext (Table.lt_size_of_getElem? hx)
    simp [Duty.claims, Phase.claimed?, ht]
  | drain hst hfree hlist hempty htasks =>
    refine .inl ⟨rfl, ?_⟩
    rw [Duty.countP_claims_discard, Ledger.waiting_shed hs hext hst hlist rfl]
    exact (Nat.zero_add _).symm
  | @fetch w p st ts t list tasks hp hst hlist htasks =>
    refine .inl ⟨rfl, ?_⟩
    have hshed := Ledger.waiting_shed (m := m) hs hext hst hlist rfl
    rw [List.countP_append, List.countP_singleton] at hshed
    rw [List.countP_append, Duty.countP_claims_discard, List.countP_singleton]
    exact hshed.trans (Nat.zero_add _).symm
  | clean hp hst hlist htasks ha =>
    refine .inl ⟨rfl, ?_⟩
    rw [List.countP_append, Duty.countP_claims_discard]
    refine Eq.trans ?_ ((Ledger.waiting_shed hs hext hst hlist rfl).trans (Nat.zero_add _).symm)
    rcases ha with ⟨rfl, -⟩ | ⟨rfl, -⟩ <;> rfl
  | allocate hpool r id blocking now => exact .of_same hs hext rfl rfl (by simp [Duty.claims])
  | disable _ | rouse | nudge _ =>
    exact .of_same hs hext rfl rfl
      (by simp [Duty.claims, List.countP_append, List.countP_map, Function.comp_def])
  | compile _ => exact .of_same hs hext rfl rfl rfl
  | judge ha => exact .of_same hs hext rfl rfl (by rcases ha with rfl | rfl <;> rfl)
  | @take w t | @drop w t =>
    have ht := Ledger.isFor_mono (m := m) hext ((hk _ rfl).2 t rfl)
    exact .of_same hs hext rfl rfl (by simp [Duty.claims, Phase.claimed?, ht])
  | publish result => exact .of_none hs hext rfl rfl rfl rfl
  | ring hd _ _ | close hd _ _ =>
    exact .of_none hs hext rfl rfl rfl (by rcases hd with rfl | rfl <;> rfl)
  | _ => exact .of_none hs hext rfl rfl rfl rfl

/-- Only a request marks a method as claimed: as it claims it, or as it sets its claim again. -/
theorem Event.marks (h : Event l d new w l') (hfree : l.claimed m = false)
    (hset : l'.claimed m = true) :
    (∃ u, d = some (.desk u m .passed)) ∨ ∃ u t, d = some (.bring u m t) := by
  have other {m' : MethodId} {v : Bool} {k : Ledger} (hne : m' ≠ m) (hk : k.claims = l.claims)
      (hset : (k.claim m' v).claimed m = true) : False := by
    rw [Ledger.claimed_claim_of_ne hne, Ledger.claimed, hk, ← Ledger.claimed, hfree] at hset
    cases hset
  have cleared {m' : MethodId} {k : Ledger} (hk : k.claims = l.claims)
      (hset : (k.claim m' false).claimed m = true) : False := by
    by_cases hm : m' = m
    · rw [hm, Ledger.claimed_claim_false] at hset
      cases hset
    · exact other hm hk hset
  cases h with
  | @claim u m' _ =>
    by_cases hm : m' = m
    · exact .inl ⟨u, hm ▸ rfl⟩
    · exact (other (k := l) hm rfl hset).elim
  | @stamp u m' t _ =>
    by_cases hm : m' = m
    · exact .inr ⟨u, t, hm ▸ rfl⟩
    · exact (other (k := l.modifyTask t _) hm rfl hset).elim
  | @unclaim u m' => exact (cleared (k := l.lock u false) rfl hset).elim
  | unmark _ | giveUp _ | release _ => exact (cleared (k := l) rfl hset).elim
  | know d =>
    rw [Ledger.claimed_know, hfree] at hset
    cases hset
  | _ => exact absurd (hfree.symm.trans hset) Bool.false_ne_true

/-- No event but the claim of a request adds to those who have the claim on a method. -/
theorem Event.count_le (h : Event l d new w l') (hs : l.Sound) (hk : ∀ d' ∈ d, d'.Known l)
    (m : MethodId) :
    new.countP (·.claims l' m) + l'.waiting (l'.isFor m) ≤
        d.toList.countP (·.claims l m) + l.waiting (l.isFor m) ∨
      l.claimed m = false ∧ l'.claimed m = true ∧
        new.countP (·.claims l' m) + l'.waiting (l'.isFor m) =
          d.toList.countP (·.claims l m) + l.waiting (l.isFor m) + 1 := by
  by_cases hkeep : ∀ w t, d = some (.post w (.shown t)) → l'.claims = l.claims
  · obtain ⟨-, hn⟩ | h | ⟨-, hn⟩ | ⟨-, -, hn⟩ := h.tenure hs hk hkeep m
    · exact .inl hn.le
    · exact .inr h
    · exact .inl (by omega)
    · exact .inl hn.le
  · -- A worker gives up: it has the claim before and after, whatever becomes of the mark.
    push Not at hkeep
    obtain ⟨w, t, rfl, hne⟩ := hkeep
    have hext := h.extends
    have hwaiting (hstocks : l'.stocks = l.stocks) :
        l'.waiting (l'.isFor m) = l.waiting (l.isFor m) := Ledger.waiting_of_stocks hs hext hstocks
    have hfor := Ledger.isFor_mono (m := m) hext ((hk _ rfl).2 t rfl)
    cases h with
    | know d | giveUp hx =>
      refine .inl (Nat.le_of_eq ?_)
      rw [hwaiting rfl]
      simp [Duty.claims, Phase.claimed?, hfor]
    | lookOut _ ha _ => rcases ha with h | h <;> cases h
    | ring hd _ _ | close hd _ _ => rcases hd with h | h <;> cases h
    | _ => exact absurd rfl hne

/-- What an event adds to those who have the claim on a method. -/
theorem Shift.claimants_add (h : Shift l ds d new w l' ds') (hk : ∀ d ∈ ds, d.Known l)
    (m : MethodId) :
    claimants l' ds' m + (d.toList.countP (·.claims l m) + l.waiting (l.isFor m)) =
      claimants l ds m + (new.countP (·.claims l' m) + l'.waiting (l'.isFor m)) := by
  have hbalance := congrArg (Multiset.countP (·.claims l' m)) h.balance
  have hold : ds.countP (·.claims l' m) = ds.countP (·.claims l m) :=
    Multiset.countP_congr rfl fun d hd => by rw [Duty.claims_mono h.event.extends (hk d hd)]
  have hduty := Duty.countP_claims_mono (m := m) h.event.extends fun d' hd' =>
    hk d' (h.mem d' (Option.mem_toList.1 hd'))
  have hhired : (w.toList.map fun w => Duty.post w .idle).countP (·.claims l' m) = 0 := by
    cases w <;> rfl
  simp only [Multiset.countP_add, Multiset.coe_countP, List.countP_append, Bool.decide_eq_true,
    hold, hduty, hhired] at hbalance
  unfold claimants
  omega

/-- In a step, no more come to have the claim on a method, but by the claim of a request. -/
theorem Shift.claimants_le (h : Shift l ds d new w l' ds') (hs : l.Sound)
    (hk : ∀ d ∈ ds, d.Known l) (m : MethodId) :
    claimants l' ds' m ≤ claimants l ds m ∨
      l.claimed m = false ∧ l'.claimed m = true ∧ claimants l' ds' m = claimants l ds m + 1 := by
  have hadd := h.claimants_add hk m
  obtain hle | ⟨hfree, hset, hn⟩ := h.event.count_le hs (fun d' hd' => hk d' (h.mem d' hd')) m
  · exact .inl (by omega)
  · exact .inr ⟨hfree, hset, by omega⟩

namespace Claimed

/-- Every event keeps each method claimed by one, unless a worker gives up. -/
theorem shift (hc : Claimed l ds) (hs : l.Sound) (hk : ∀ d ∈ ds, d.Known l)
    (h : Shift l ds d new w l' ds')
    (hkeep : ∀ w t, d = some (.post w (.shown t)) → l'.claims = l.claims) : Claimed l' ds' := by
  intro m
  have htenure := h.event.tenure hs (fun d' hd' => hk d' (h.mem d' hd')) hkeep m
  have hadd := h.claimants_add hk m
  have hmem : d.toList.countP (·.claims l m) + l.waiting (l.isFor m) ≤ claimants l ds m := by
    have hle : (↑d.toList : Multiset Duty) ≤ ds := by
      cases hd : d with
      | none => exact Multiset.zero_le _
      | some d' => exact Multiset.singleton_le.2 (h.mem d' hd)
    have := Multiset.countP_le_of_le (·.claims l m) hle
    simp only [Multiset.coe_countP, Bool.decide_eq_true] at this
    unfold claimants
    omega
  have hcount := hc m
  have := Bool.toNat_le (l.claimed m)
  obtain ⟨hv, hn⟩ | ⟨hv, hv', hn⟩ | ⟨hv', hn⟩ | ⟨hv', hpos, hn⟩ := htenure
  · rw [hv]
    omega
  · rw [hv, Bool.toNat_false] at hcount
    rw [hv', Bool.toNat_true]
    omega
  · rw [hv', Bool.toNat_false]
    omega
  · rw [hv', Bool.toNat_true]
    omega

/-- Who has the claim on a method may give it back. -/
theorem relinquish {d : Duty} (hc : Claimed l (d ::ₘ ds)) (hm : m < l.claims.size)
    (hd : d.claims l m = true) (hother : ∀ m' ≠ m, d.claims l m' = false) :
    Claimed (l.claim m false) ds := by
  intro m'
  have hcount := hc m'
  have hsame : claimants (l.claim m false) ds m' = claimants l ds m' := rfl
  rw [hsame]
  unfold claimants at hcount ⊢
  rw [Multiset.countP_cons] at hcount
  by_cases hm' : m' = m
  · subst hm'
    have := Bool.toNat_le (l.claimed m')
    rw [if_pos hd] at hcount
    rw [Ledger.claimed_claim hm, Bool.toNat_false]
    omega
  · rw [if_neg (by simp [hother m' hm']), Nat.add_zero] at hcount
    rw [Ledger.claimed_claim_of_ne (Ne.symm hm'), hcount]

/-- A change of the ledger that shows neither in the queues nor in the claims changes nothing. -/
theorem mono (hc : Claimed l ds) (hs : l.Sound) (hk : ∀ d ∈ ds, d.Known l) (h : l.Extends l')
    (hstocks : l'.stocks = l.stocks) (hclaimed : ∀ m, l'.claimed m = l.claimed m) :
    Claimed l' ds := by
  intro m
  have hold : ds.countP (·.claims l' m) = ds.countP (·.claims l m) :=
    Multiset.countP_congr rfl fun d hd => by rw [Duty.claims_mono h (hk d hd)]
  rw [claimants, Ledger.waiting_of_stocks hs h hstocks, hold, hclaimed]
  exact hc m

/-- A duty that has no claim does not count. -/
theorem cons {d : Duty} (hc : Claimed l ds) (hd : ∀ m, d.claims l m = false) :
    Claimed l (d ::ₘ ds) := by
  intro m
  rw [claimants, Multiset.countP_cons, if_neg (by simp [hd m]), Nat.add_zero]
  exact hc m

end Claimed

end JitBroker
