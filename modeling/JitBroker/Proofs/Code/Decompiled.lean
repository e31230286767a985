import JitBroker.Proofs.Code.Filing
import JitBroker.Proofs.Code.Space
import JitBroker.Proofs.Code.Verdict
import JitBroker.Proofs.Shutdown.Reject

/-!
# What a decompilation does

A decompilation takes a few steps of its thread. If nobody else moves in between, they come to
`Broker.decompile`: the first of the codes attached for the entry and the tier is detached and
closed, its space is given back, the event is recorded, and a broker that was stopped for want of
space may go on; or there is no such code, and nothing happens (`System.decompiled_of_run`).

Only one code is detached, and it need not be an entrant one. The list of OSR codes keeps those that
were closed to new entries, and code that was compiled for the same entry and tier since then comes
after them: a decompilation detaches the one that is closed already, and leaves the entrant one. So
entrant code for the entry and the tier remains exactly if there is some after the code that was
detached (`Broker.Detaches.remains`).
-/

namespace JitBroker

/-! ### Detaching -/

/-- Whether code has the entry and the tier of a decompilation. -/
def InstalledCode.IsFor (c : InstalledCode) (d : Decompilation) : Prop :=
  c.entryBci = d.bci ∧ c.tier = d.tier

instance (c : InstalledCode) (d : Decompilation) : Decidable (c.IsFor d) :=
  inferInstanceAs (Decidable (_ ∧ _))

theorem InstalledCode.isOsr_eq_true_iff {c : InstalledCode} :
    c.isOsr = true ↔ c.entryBci ≠ invocationEntry := bne_iff_ne

theorem InstalledCode.isOsr_eq_false_iff {c : InstalledCode} :
    c.isOsr = false ↔ c.entryBci = invocationEntry := bne_eq_false_iff_eq

/-- What detaching code makes of a method: the first code for the entry and the tier is taken out
and closed, or there is none. -/
inductive Method.Detached (m : Method) (d : Decompilation) : Option InstalledCode → Method → Prop where
  /-- There is no such code. -/
  | none (h : ∀ c ∈ m.codes, ¬ c.IsFor d) : Detached m d none m
  /-- The first such code is taken out. -/
  | some {m' : Method} {c : InstalledCode} (before after : List InstalledCode)
    (hcodes : m.codes = before ++ c :: after) (hcodes' : m'.codes = before ++ after)
    (hc : c.IsFor d) (hbefore : ∀ x ∈ before, ¬ x.IsFor d) : Detached m d (some c.close) m'

/-- A method that has its code where it belongs is searched in the right place. -/
theorem Method.Filed.detached {m : Method} (h : m.Filed) (d : Decompilation) :
    m.Detached d (m.detach d.bci d.tier).1 (m.detach d.bci d.tier).2 := by
  unfold detach
  split
  case isTrue hbci =>
    have osr : ∀ c ∈ m.osrCodes, ¬ c.IsFor d := fun c hc hfor =>
      InstalledCode.isOsr_eq_true_iff.1 (h.osrCodes c hc) (hfor.1.trans hbci)
    split
    case h_1 c hcode =>
      have entry := InstalledCode.isOsr_eq_false_iff.1 (h.code c hcode)
      split
      case isTrue htier =>
        exact .some [] m.osrCodes (by simp [codes, hcode]) (by simp [codes])
          ⟨entry.trans hbci.symm, htier⟩ (by simp)
      case isFalse htier =>
        refine .none fun x hx hfor => ?_
        simp only [codes, hcode, Option.toList_some, List.singleton_append, List.mem_cons] at hx
        rcases hx with rfl | hx
        · exact htier hfor.2
        · exact osr x hx hfor
    case h_2 hcode =>
      refine .none fun x hx => osr x ?_
      simpa [codes, hcode] using hx
  case isFalse hbci =>
    have standard : ∀ c ∈ m.code.toList, ¬ c.IsFor d := fun c hc hfor =>
      hbci (hfor.1.symm.trans (InstalledCode.isOsr_eq_false_iff.1 (h.code c (Option.mem_toList.1 hc))))
    have forIff (c : InstalledCode) : (c.entryBci == d.bci && c.tier == d.tier) = true ↔ c.IsFor d := by
      simp [InstalledCode.IsFor]
    split
    case h_1 c hfind =>
      obtain ⟨hp, l, r, heq, hl⟩ := List.find?_eq_some_iff_append.1 hfind
      have hl (x : InstalledCode) (hx : x ∈ l) : ¬ (x.entryBci == d.bci && x.tier == d.tier) = true :=
        (Bool.not_eq_true _).mpr ((Bool.not_eq_true' _).mp (hl x hx))
      have herase : m.osrCodes.eraseP (fun c => c.entryBci == d.bci && c.tier == d.tier) = l ++ r := by
        rw [heq, List.eraseP_append_right _ hl]
        exact congrArg (l ++ ·) (List.eraseP_cons_of_pos (p := fun c => _ && _) hp)
      refine .some (m.code.toList ++ l) r (by simp [codes, heq]) (by simp [codes, herase])
        ((forIff c).1 hp) fun x hx => ?_
      rcases List.mem_append.1 hx with hx | hx
      · exact standard x hx
      · exact fun hfor => hl x hx ((forIff x).2 hfor)
    case h_2 hfind =>
      refine .none fun x hx hfor => ?_
      rcases List.mem_append.1 hx with hx | hx
      · exact standard x hx hfor
      · exact List.find?_eq_none.1 hfind x hx ((forIff x).2 hfor)

/-- There is no more than one standard code to detach. -/
theorem Method.Filed.not_isFor_of_detach {m : Method} (h : m.Filed) {d : Decompilation}
    (hbci : d.bci = invocationEntry) (hd : (m.detach d.bci d.tier).1 ≠ none) :
    ∀ c ∈ (m.detach d.bci d.tier).2.codes, ¬ c.IsFor d := by
  have osr : ∀ c ∈ m.osrCodes, ¬ c.IsFor d := fun c hc hfor =>
    InstalledCode.isOsr_eq_true_iff.1 (h.osrCodes c hc) (hfor.1.trans hbci)
  unfold detach at hd ⊢
  rw [if_pos hbci] at hd ⊢
  split at hd
  case h_2 => exact absurd rfl hd
  case h_1 c hcode =>
    split at hd
    case isFalse => exact absurd rfl hd
    case isTrue htier => simpa [hcode, htier, codes] using osr

/-! ### Decompiling -/

namespace Broker

/-- The broker, which goes on if it was stopped for want of space and there is room again in the
segment of a unit. -/
def restart (b : Broker) (unit : TierUnit) : Broker :=
  if b.jobs = .stoppedForCache ∧
      ¬ b.cache.unallocated unit.config.blobKind < b.config.restartHeadroom then
    { b with jobs := .run, stats := { b.stats with restarted := b.stats.restarted + 1 } }
  else b

/-- The broker without the space of some code, and with the decompilation recorded. -/
def discard (b : Broker) (d : Decompilation) (code : InstalledCode) : Broker :=
  { b with
    cache := (b.cache.release code.region.id).2
    recorder := b.recorder.map fun r => (r.record d).2 }

/-- The answer to a decompilation that nobody interferes with, and the broker after it. -/
def decompile (b : Broker) (d : Decompilation) : Bool × Broker :=
  match b.detach d with
  | (none, b) => (false, b)
  | (some code, b) =>
    (true, match (b.unitOf? d.tier).bind (b.units[·]?) with
      | some unit => (b.discard d code).restart unit
      | none => b.discard d code)

/-- What a decompilation makes of a broker if it detaches `code`, after which there stand these. -/
structure Detaches (b : Broker) (d : Decompilation) (code : InstalledCode)
    (after : List InstalledCode) (b' : Broker) : Prop where
  /-- The code has the entry and the tier. -/
  fits : code.IsFor d
  /-- It is closed. -/
  closed : (b.detach d).1 = some code.close
  /-- It was the first such code, and it is the one that is no longer attached. -/
  codes : ∃ before, b.codesOf d.method = before ++ code :: after ∧
    b'.codesOf d.method = before ++ after ∧ ∀ c ∈ before, ¬ c.IsFor d
  /-- Other methods have their codes. -/
  others : ∀ m, m ≠ d.method → b'.codesOf m = b.codesOf m
  /-- Its region is no longer live, and all others are. -/
  regions : b'.cache.regions = b.cache.regions.filter (·.id != code.region.id)
  /-- Entrant code for the entry and the tier remains only if there was some after it. -/
  remains : (∃ c ∈ b'.codesOf d.method, c.IsFor d ∧ c.entrant = true) ↔
    ∃ c ∈ after, c.IsFor d ∧ c.entrant = true
  /-- No standard code remains. -/
  standard : d.bci = invocationEntry → ∀ c ∈ b'.codesOf d.method, ¬ c.IsFor d

theorem codesOf_eq {b : Broker} {k : MethodId} {m : Method} (h : b.methods[k]? = some m) :
    b.codesOf k = m.codes := by
  rw [codesOf, h]
  rfl

theorem codesOf_eq_nil {b : Broker} {k : MethodId} (h : b.methods[k]? = none) :
    b.codesOf k = [] := by
  rw [codesOf, h]
  rfl

@[simp] theorem methods_restart (b : Broker) (unit : TierUnit) :
    (b.restart unit).methods = b.methods := by
  unfold restart
  split <;> rfl

@[simp] theorem cache_restart (b : Broker) (unit : TierUnit) : (b.restart unit).cache = b.cache := by
  unfold restart
  split <;> rfl

theorem regions_release (c : CodeCache) (id : Nat) :
    (c.release id).2.regions = c.regions.filter (·.id != id) := by
  rw [CodeCache.release]
  split
  case h_1 => rfl
  case h_2 hnone =>
    refine (List.filter_eq_self.2 fun r hr => ?_).symm
    have other := List.find?_eq_none.1 hnone r hr
    simpa using other

variable {b b' : Broker} {d : Decompilation} {m : Method} {code : InstalledCode}

/-- The broker after a decompilation, but for what does not concern code. -/
theorem decompile_eq_true (hd : b.detach d = (some code, b')) : (b.decompile d).1 = true ∧
    (b.decompile d).2.methods = b'.methods ∧
    (b.decompile d).2.cache.regions = b'.cache.regions.filter (·.id != code.region.id) := by
  simp only [decompile, hd, true_and]
  cases (b'.unitOf? d.tier).bind (b'.units[·]?) with
  | none => exact ⟨rfl, regions_release _ _⟩
  | some unit =>
    rw [methods_restart, cache_restart]
    exact ⟨rfl, regions_release _ _⟩

/-- What a decompilation does to a broker whose methods have their code where it belongs. -/
theorem decompile_cases (hb : ∀ ⦃k : MethodId⦄ ⦃m : Method⦄, b.methods[k]? = some m → m.Filed)
    (d : Decompilation) :
    ((b.decompile d).1 = true ∧ ∃ code after, b.Detaches d code after (b.decompile d).2) ∨
      ((b.decompile d).1 = false ∧ (∀ c ∈ b.codesOf d.method, ¬ c.IsFor d) ∧
        (b.decompile d).2 = b) := by
  cases hm : b.methods[d.method]? with
  | none =>
    have answer : b.decompile d = (false, b) := by simp only [decompile, detach, hm]
    rw [answer, codesOf_eq_nil hm]
    exact .inr ⟨rfl, by simp, rfl⟩
  | some m =>
    have hfound : b.detach d = ((m.detach d.bci d.tier).1,
        b.modifyMethod d.method fun m => (m.detach d.bci d.tier).2) := by
      simp only [detach, hm]
    have spec := (hb hm).detached d
    have standard := (hb hm).not_isFor_of_detach (d := d)
    cases hd : m.detach d.bci d.tier with
    | mk found m' =>
      rw [hd] at spec standard hfound
      cases spec with
      | none h =>
        have same : (b.modifyMethod d.method fun m => (m.detach d.bci d.tier).2) = b := by
          have unchanged : (b.methods.modify d.method fun m => (m.detach d.bci d.tier).2) =
              b.methods := by
            refine Table.ext_getElem? fun j => ?_
            rw [Table.getElem?_modify]
            split
            case isTrue hj =>
              rw [← hj, hm, Option.map_some, hd]
            case isFalse => rfl
          rw [modifyMethod, unchanged]
        have answer : b.decompile d = (false, b) := by simp only [decompile, hfound, same]
        rw [answer, codesOf_eq hm]
        exact .inr ⟨rfl, h, rfl⟩
      | @some _ c before after hcodes hcodes' hc hbefore =>
        obtain ⟨hanswer, hmethods, hregions⟩ := decompile_eq_true hfound
        have changed : (b.decompile d).2.methods[d.method]? = some m' := by
          rw [hmethods, modifyMethod, Table.getElem?_modify_self hm, hd]
        have codes := codesOf_eq changed
        refine .inl ⟨hanswer, c, after, hc, by rw [hfound], ⟨before, ?_, ?_, hbefore⟩,
          fun k hk => ?_, hregions, ?_, fun hbci => ?_⟩
        · rw [codesOf_eq hm, hcodes]
        · rw [codes, hcodes']
        · rw [codesOf, hmethods, modifyMethod, Table.getElem?_modify_of_ne (Ne.symm hk), codesOf]
        · rw [codes, hcodes']
          constructor
          · rintro ⟨x, hx, hfor, hentrant⟩
            have hafter := (List.mem_append.1 hx).resolve_left fun hx => hbefore x hx hfor
            exact ⟨x, hafter, hfor, hentrant⟩
          · rintro ⟨x, hx, hfor⟩
            exact ⟨x, List.mem_append_right _ hx, hfor⟩
        · rw [codes]
          exact standard hbci (Option.some_ne_none _)

end Broker

namespace System

variable {s s' s'' : System} {i : ThreadId} {a : Action} {as rest : List Action} {b b' : Broker}
  {r : Option Reply}

/-- A thread alone takes the system from one state to another. -/
def RunsTo (i : ThreadId) (s s' : System) : Prop := ∃ n, (times i n).foldl move s = s'

theorem RunsTo.refl (i : ThreadId) (s : System) : RunsTo i s s := ⟨0, rfl⟩

/-- One step, and then others. -/
theorem RunsTo.head (h : s.move (.step i {}) = s') (h' : RunsTo i s' s'') : RunsTo i s s'' := by
  obtain ⟨n, rfl⟩ := h'
  exact ⟨n + 1, by rw [times, List.replicate_succ, List.foldl_cons, h]; rfl⟩

/-- The system with another broker, and with a thread that has this to do and this left behind. -/
def withThread (s : System) (i : ThreadId) (b : Broker) (as : List Action) (r : Option Reply) :
    System where
  broker := b
  threads := s.threads.modify i fun t => { t with agenda := as, reply := r }

/-- What a thread has to do and has left behind may as well be written down. -/
theorem withThread_self {t : Thread} (ht : s.threads[i]? = some t) :
    s.withThread i s.broker t.agenda t.reply = s := by
  refine congrArg (mk s.broker) (Table.ext_getElem? fun j => ?_)
  rw [Table.getElem?_modify]
  split
  case isTrue hij =>
    subst hij
    rw [ht]
    rfl
  case isFalse => rfl

/-- A step of that thread. -/
theorem RunsTo.step {t : Thread} {next : List Action} {reply : Option Reply}
    (ht : s.threads[i]? = some t)
    (hrun : ∀ me, a.run me {} b = some { broker := b', next := next, reply := reply })
    (h : RunsTo i (s.withThread i b' (next ++ rest) (reply.or r)) s') :
    RunsTo i (s.withThread i b (a :: rest) r) s' := by
  refine .head ?_ h
  have hthread : (s.withThread i b (a :: rest) r).threads[i]? =
      some { t with agenda := a :: rest, reply := r } := Table.getElem?_modify_self ht _
  have hstep := step_eq_some_iff.2 ⟨_, a, rest, _, hthread, rfl, hrun _, rfl⟩
  rw [System.move, hstep]
  exact congrArg (mk b') (Table.modify_modify s.threads i _ _)

/-- The steps in which a broker may go on. -/
theorem RunsTo.restart {t : Thread} {u : UnitId} {unit : TierUnit} (ht : s.threads[i]? = some t)
    (hu : b.units[u]? = some unit) (h : RunsTo i (s.withThread i (b.restart unit) rest r) s') :
    RunsTo i (s.withThread i b (.control (.restart u) :: rest) r) s' := by
  unfold Broker.restart at h
  by_cases hjobs : b.jobs = .stoppedForCache
  case neg =>
    rw [if_neg fun both => hjobs both.1] at h
    exact .step ht (fun _ => by simp only [Action.run, ControlStep.run, if_neg hjobs]; rfl) h
  case pos =>
    refine .step ht (fun _ => by simp only [Action.run, ControlStep.run, if_pos hjobs]; rfl) ?_
    by_cases hroom : b.cache.unallocated unit.config.blobKind < b.config.restartHeadroom
    case pos =>
      rw [if_neg fun both => both.2 hroom] at h
      exact .step ht (fun _ => by simp only [Action.run, ControlStep.run, hu, if_pos hroom]; rfl) h
    case neg =>
      rw [if_pos ⟨hjobs, hroom⟩] at h
      refine .step ht (fun _ => by simp only [Action.run, ControlStep.run, hu, if_neg hroom]; rfl) ?_
      refine .step ht (fun _ => by simp only [Action.run, ControlStep.run, if_pos hjobs]; rfl) ?_
      exact .step ht (fun _ => rfl) h

/-- The steps in which space is given back and the decompilation recorded. -/
theorem RunsTo.discard {t : Thread} {d : Decompilation} {code : InstalledCode}
    (ht : s.threads[i]? = some t) (h : RunsTo i (s.withThread i (b.discard d code) rest r) s') :
    RunsTo i (s.withThread i b
      (.control (.release d code.region.id) :: .control (.record d) :: rest) r) s' :=
  .step ht (fun _ => rfl) (.step ht (fun _ => rfl) h)

/-- A decompilation that nobody interferes with comes to its answer. -/
theorem runsTo_decompile {t : Thread} {d : Decompilation} (ht : s.threads[i]? = some t)
    (ha : t.agenda = .control (.detach d) :: rest) :
    RunsTo i s (s.withThread i (s.broker.decompile d).2 rest
      (some (.flag (s.broker.decompile d).1))) := by
  suffices RunsTo i (s.withThread i s.broker (.control (.detach d) :: rest) t.reply)
      (s.withThread i (s.broker.decompile d).2 rest (some (.flag (s.broker.decompile d).1))) by
    rwa [← ha, withThread_self ht] at this
  cases hd : s.broker.detach d with
  | mk code b' =>
    cases code with
    | none =>
      have answer : s.broker.decompile d = (false, b') := by simp only [Broker.decompile, hd]
      rw [answer]
      exact .step ht (fun _ => by simp only [Action.run, ControlStep.run, hd]; rfl) (.refl i _)
    | some code =>
      refine .step ht (fun _ => by simp only [Action.run, ControlStep.run, hd]; rfl) ?_
      have last (b : Broker) : RunsTo i (s.withThread i b (.answer (.flag true) :: rest) t.reply)
          (s.withThread i b rest (some (.flag true))) := .step ht (fun _ => rfl) (.refl i _)
      cases hu : b'.unitOf? d.tier with
      | none =>
        have answer : s.broker.decompile d = (true, b'.discard d code) := by
          simp only [Broker.decompile, hd, hu, Option.bind_none]
        rw [answer]
        exact .discard ht (last _)
      | some u =>
        obtain ⟨unit, hunit⟩ := Table.exists_getElem? (Broker.lt_of_unitOf hu)
        have answer : s.broker.decompile d = (true, (b'.discard d code).restart unit) := by
          simp only [Broker.decompile, hd, hu, Option.bind_some, hunit]
        rw [answer]
        exact .discard ht (.restart ht hunit (last _))

/-- The region of code that is attached is live. -/
theorem Accounts.mem_regions {gone : List Region} {k : MethodId} {c : InstalledCode}
    (h : s.Accounts gone) (hc : c ∈ s.broker.codesOf k) : c.region ∈ s.broker.cache.regions := by
  obtain ⟨rs, -, hbalance⟩ := h.balance
  have hattached : c.region ∈ s.broker.codeRegions := by
    cases hm : s.broker.methods[k]? with
    | none => simp [Broker.codesOf_eq_nil hm] at hc
    | some m =>
      rw [Broker.codesOf_eq hm] at hc
      exact Multiset.mem_coe.2 (List.mem_flatMap.2
        ⟨m, Table.mem_toList_iff.2 ⟨k, hm⟩, List.mem_map_of_mem hc⟩)
  rw [← Multiset.mem_coe, hbalance, Broker.gathered_attached]
  simp [hattached]

/-- What becomes of a system when a thread decompiles, with this answer and this broker after it. -/
structure Decompiled (s : System) (i : ThreadId) (d : Decompilation) (rest : List Action)
    (answer : Bool) (b' : Broker) : Prop where
  /-- The thread comes to its answer, and nothing else changes in the system. -/
  runs : RunsTo i s (s.withThread i b' rest (some (.flag answer)))
  /-- If the answer is yes, one code was detached. -/
  yes : answer = true → ∃ code after, s.broker.Detaches d code after b'
  /-- If it is no, there was no code for the entry and the tier, and the broker is as it was. -/
  no : answer = false → (∀ c ∈ s.broker.codesOf d.method, ¬ c.IsFor d) ∧ b' = s.broker

/-- In every state that a broker can get into, a decompilation detaches the first code for its entry
and its tier, or there is none and nothing changes. -/
theorem decompiled_of_run {config : Config} {parts : Broker.Parts} {b : Broker}
    (hb : Broker.assemble config parts = .ok b) {s : System} (hs : Reachable (launch b) s)
    {i : ThreadId} {t : Thread} {d : Decompilation} {rest : List Action}
    (ht : s.threads[i]? = some t) (ha : t.agenda = .control (.detach d) :: rest) :
    s.Decompiled i d rest (s.broker.decompile d).1 (s.broker.decompile d).2 ∧
      (parts.cache.regions = [] → ∀ {code after b'}, s.broker.Detaches d code after b' →
        code.region ∈ s.broker.cache.regions) := by
  obtain ⟨moves, rfl⟩ := reachable_iff_foldl.1 hs
  refine ⟨⟨runsTo_decompile ht ha, fun hyes => ?_, fun hno => ?_⟩, fun hempty code after b' hd => ?_⟩
  · rcases Broker.decompile_cases ((filed_launch hb).foldl moves) d with ⟨-, h⟩ | ⟨hno, -⟩
    · exact h
    · rw [hyes] at hno
      cases hno
  · rcases Broker.decompile_cases ((filed_launch hb).foldl moves) d with ⟨hyes, -⟩ | ⟨-, h⟩
    · rw [hno] at hyes
      cases hyes
    · exact h
  · have haccounts := (accounts_launch hb hempty).foldl (lawful_launch (Broker.fresh_assemble hb)) moves
    obtain ⟨before, hcodes, -⟩ := hd.codes
    exact haccounts.mem_regions (hcodes ▸ List.mem_append_right _ List.mem_cons_self)

/-- A method is requested for an entry in a loop, and its code is installed. -/
def soloLoop (i : ThreadId) : List Move :=
  [.call (.request { method := 0, bci := 5, tier := 1, reason := .normal, blocking := true }) 0]
    ++ times i 21 ++ times 1 11
    ++ [.step 1 { move := some (.install 256 128) }, .step 1 {}, .step 1 { move := some .finish }]
    ++ times 1 12 ++ times i 6

/-- The code is closed to new entries, and the method is compiled for the entry again. -/
def soloTwice : List Move := soloStart ++ soloLoop 2 ++ [.operate (.close 0 1)] ++ soloLoop 3

/-- Then it is decompiled. -/
def soloDecompile : List Move := soloTwice ++ [.call (.decompile ⟨0, 5, 1⟩) 0]

/-- The decompilation comes to yes there, and the second code stays attached and entrant. -/
theorem decompiled_of_soloDecompile :
    ∃ b', (soloDecompile.foldl move (launch .solo)).Decompiled 4 ⟨0, 5, 1⟩ [] true b' ∧
      b'.codesOf 0 =
        [{ compileId := 2, tier := 1, entryBci := 5, region := ⟨2, .profiled, 256⟩,
           instructionsSize := 128, entrant := true }] := by
  have hsize : (soloTwice.foldl move (launch .solo)).threads.size = 4 := by decide +kernel
  have hthread : (soloDecompile.foldl move (launch .solo)).threads[4]? =
      some { agenda := [.control (.detach ⟨0, 5, 1⟩)] } := by
    rw [soloDecompile, List.foldl_append]
    exact hsize ▸ Table.getElem?_add_self _ _
  have hyes : ((soloDecompile.foldl move (launch .solo)).broker.decompile ⟨0, 5, 1⟩).1 = true := by
    decide +kernel
  obtain ⟨h, -⟩ :=
    decompiled_of_run Broker.assemble_solo (reachable_iff_foldl.2 ⟨soloDecompile, rfl⟩) hthread rfl
  rw [hyes] at h
  exact ⟨_, h, by decide +kernel⟩

end System

end JitBroker
