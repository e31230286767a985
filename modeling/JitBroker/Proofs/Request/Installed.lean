import JitBroker.Proofs.Jobs.Stop
import JitBroker.Proofs.Request.Refused
import JitBroker.Proofs.Rest.Start

/-!
# Requests that are answered with code

A request asks for attached code in three places: before its checks, under the lock of its queue,
and after its task is complete. In all of them it asks the same question (`Method.compiledCode?`),
so that the code of every such answer is attached and entrant at that moment, has the entry that was
asked for, and is of the tier that was asked for, or the best one there is in the case of an OSR
entry (`Broker.Serves`). Where several codes are equally good, the one attached last is the answer
(`Broker.Answers`).

The other way round, a request for which there is such code is answered at once, by its own steps
alone, and the broker is as before, unless it was stopped for want of space and goes on. There is
one moment in which it is turned away instead: a worker has just found that the back-end of the tier
does not start, and is about to disable compilation.

The question is one step: no code is closed while the codes are looked through. Of a lookup that
takes them one by one while some are closed, `Method.lookup_of_closing` tells what is left.
-/

namespace JitBroker

/-- Code that answers a request. -/
structure Broker.Serves (b : Broker) (r : Request) (c : InstalledCode) : Prop where
  /-- It is attached to the method. -/
  attached : c ∈ b.codesOf r.method
  /-- It is entrant. -/
  entrant : c.entrant = true
  /-- It has the entry. -/
  entry : c.entryBci = r.bci
  /-- Standard code has the tier. -/
  tier : r.isOsr = false → c.tier = r.tier
  /-- OSR code has at least the tier, and no entrant code for the entry has a higher one. -/
  highest : r.isOsr = true → r.tier ≤ c.tier ∧
    ∀ c' ∈ b.codesOf r.method, c'.entrant = true → c'.entryBci = r.bci → c'.tier ≤ c.tier

instance (b : Broker) (r : Request) (c : InstalledCode) : Decidable (b.Serves r c) :=
  decidable_of_iff (c ∈ b.codesOf r.method ∧ c.entrant = true ∧ c.entryBci = r.bci ∧
      (r.isOsr = false → c.tier = r.tier) ∧ (r.isOsr = true → r.tier ≤ c.tier ∧
        ∀ c' ∈ b.codesOf r.method, c'.entrant = true → c'.entryBci = r.bci → c'.tier ≤ c.tier))
    ⟨fun ⟨h₁, h₂, h₃, h₄, h₅⟩ => ⟨h₁, h₂, h₃, h₄, h₅⟩,
      fun ⟨h₁, h₂, h₃, h₄, h₅⟩ => ⟨h₁, h₂, h₃, h₄, h₅⟩⟩

/-- Code that is the answer to a request: of the codes that serve, the one attached last. -/
structure Broker.Answers (b : Broker) (r : Request) (c : InstalledCode) : Prop where
  /-- It serves. -/
  serves : b.Serves r c
  /-- No code attached after it does. -/
  last : ∃ before after, b.codesOf r.method = before ++ c :: after ∧ ∀ x ∈ after, ¬ b.Serves r x

/-- A request that is not turned away for its tier, its method or the state of the jobs. -/
structure Broker.OpenTo (b : Broker) (r : Request) (unit : TierUnit) : Prop where
  /-- Its tier is enabled. -/
  found : (b.unitOf? r.tier).bind (b.units[·]?) = some unit
  /-- Jobs are taken, or will be as soon as somebody asks. -/
  accepting : (b.restart unit).accepting = true
  /-- Code of its method can be asked for. -/
  method : ∃ m, b.methods[r.method]? = some m ∧ m.isAbstract = false ∧ m.isIntrinsic = false ∧
    b.isInitialized m = true

/-! ### The question -/

namespace Method

theorem highest_concat (cs : List InstalledCode) (c : InstalledCode) :
    highest (cs ++ [c]) = match highest cs with
      | some best => if best.tier ≤ c.tier then some c else some best
      | none => some c := by
  rw [highest, List.foldl_append]
  rfl

/-- If there are codes at all, there is one of the highest tier that is the last of this tier. -/
theorem exists_highest {cs : List InstalledCode} (h : cs ≠ []) :
    ∃ before c after, cs = before ++ c :: after ∧ highest cs = some c ∧
      (∀ x ∈ before, x.tier ≤ c.tier) ∧ ∀ x ∈ after, x.tier < c.tier := by
  induction cs using List.reverseRecOn with
  | nil => exact absurd rfl h
  | append_singleton cs c ih =>
    rw [highest_concat]
    by_cases hcs : cs = []
    · subst hcs
      exact ⟨[], c, [], rfl, rfl, nofun, nofun⟩
    · obtain ⟨before, best, after, rfl, hbest, hbefore, hafter⟩ := ih hcs
      rw [hbest]
      by_cases hc : best.tier ≤ c.tier
      · refine ⟨before ++ best :: after, c, [], rfl, if_pos hc, fun x hx => ?_, nofun⟩
        rcases List.mem_append.1 hx with hx | hx
        · exact UInt8.le_trans (hbefore x hx) hc
        · rcases List.mem_cons.1 hx with rfl | hx
          · exact hc
          · exact UInt8.le_trans (UInt8.le_of_lt (hafter x hx)) hc
      · refine ⟨before, best, after ++ [c], by simp, if_neg hc, hbefore, fun x hx => ?_⟩
        rcases List.mem_append.1 hx with hx | hx
        · exact hafter x hx
        · exact List.mem_singleton.1 hx ▸ UInt8.not_le.1 hc

/-- The answer is the last of the codes of its tier, and none is of a higher tier. -/
theorem split_of_highest {cs : List InstalledCode} {c : InstalledCode} (h : highest cs = some c) :
    (∃ before after, cs = before ++ c :: after ∧ ∀ x ∈ after, x.tier < c.tier) ∧
      ∀ x ∈ cs, x.tier ≤ c.tier := by
  have hne : cs ≠ [] := by
    rintro rfl
    cases h
  obtain ⟨before, c', after, rfl, hc', hbefore, hafter⟩ := exists_highest hne
  obtain rfl := Option.some.inj (h.symm.trans hc')
  refine ⟨⟨before, after, rfl, hafter⟩, fun x hx => ?_⟩
  rcases List.mem_append.1 hx with hx | hx
  · exact hbefore x hx
  · rcases List.mem_cons.1 hx with rfl | hx
    · exact UInt8.le_refl _
    · exact UInt8.le_of_lt (hafter x hx)

theorem answersOsr_iff {bci : Int} {t : Tier} {c : InstalledCode} :
    answersOsr bci t false c = true ↔ c.entryBci = bci ∧ c.entrant = true ∧ t ≤ c.tier := by
  simp [answersOsr, and_assoc]

/-- Of codes that are looked through one by one, `seen` as each was found, while some may be closed:
the answer was entrant at the start, and at the end no entrant code of the entry is better. The
answer itself may be closed by then. -/
theorem lookup_of_closing {before seen after : List InstalledCode} {bci : Int} {t : Tier}
    {c : InstalledCode} (hseen : List.Forall₂ (fun x y => y = x ∨ y = x.close) before seen)
    (hafter : List.Forall₂ (fun x y => y = x ∨ y = x.close) seen after)
    (h : highest (seen.filter (answersOsr bci t false)) = some c) :
    c ∈ before ∧ answersOsr bci t false c = true ∧
      ∀ x ∈ after, x.entrant = true → x.entryBci = bci → x.tier ≤ c.tier := by
  -- A code that is found entrant has not been closed before.
  have unclosed {xs ys : List InstalledCode}
      (hxs : List.Forall₂ (fun x y => y = x ∨ y = x.close) xs ys) {y : InstalledCode} (hy : y ∈ ys)
      (hentrant : y.entrant = true) : y ∈ xs := by
    induction hxs with
    | nil => cases hy
    | cons hxy _ ih =>
      rcases List.mem_cons.1 hy with rfl | hy
      · rcases hxy with rfl | rfl
        · exact List.mem_cons_self
        · cases hentrant
      · exact List.mem_cons_of_mem _ (ih hy)
  obtain ⟨⟨lower, higher, hcodes, -⟩, hle⟩ := split_of_highest h
  have hc : c ∈ seen.filter (answersOsr bci t false) :=
    hcodes ▸ List.mem_append_right lower List.mem_cons_self
  obtain ⟨hmem, hanswers⟩ := List.mem_filter.1 hc
  obtain ⟨-, hentrant, htier⟩ := answersOsr_iff.1 hanswers
  refine ⟨unclosed hseen hmem hentrant, hanswers, fun x hx hxentrant hxentry => ?_⟩
  by_cases hlow : t ≤ x.tier
  · exact hle x (List.mem_filter.2 ⟨unclosed hafter hx hxentrant,
      answersOsr_iff.2 ⟨hxentry, hxentrant, hlow⟩⟩)
  · exact UInt8.le_trans (UInt8.le_of_lt (UInt8.not_le.1 hlow)) htier

end Method

section

variable {b : Broker} {m : Method} {r : Request} {c : InstalledCode}

/-- A method that has its code where it belongs answers with the last code that serves. -/
theorem Method.Filed.answers (h : m.Filed) (hm : b.methods[r.method]? = some m)
    (hc : m.compiledCode? r.bci r.tier = some c) : b.Answers r c := by
  have hcodes := Broker.codesOf_eq hm
  rw [compiledCode?] at hc
  by_cases hbci : r.bci = invocationEntry
  · rw [if_pos hbci, Option.filter_eq_some_iff, Bool.and_eq_true, beq_iff_eq] at hc
    obtain ⟨hcode, htier, hentrant⟩ := hc
    have hosr : r.isOsr = false := by simp [Request.isOsr, hbci]
    have hsplit : b.codesOf r.method = [] ++ c :: m.osrCodes := by simp [hcodes, codes, hcode]
    refine ⟨⟨by simp [hsplit], hentrant, ?_, fun _ => htier, fun hosr' => ?_⟩,
      [], m.osrCodes, hsplit, fun x hx hserves => ?_⟩
    · exact (InstalledCode.isOsr_eq_false_iff.1 (h.code c hcode)).trans hbci.symm
    · exact absurd (hosr.symm.trans hosr') Bool.false_ne_true
    · exact InstalledCode.isOsr_eq_true_iff.1 (h.osrCodes x hx) (hserves.entry.trans hbci)
  · rw [if_neg hbci, osrCode?] at hc
    have hosr : r.isOsr = true := by simp [Request.isOsr, hbci]
    obtain ⟨⟨lower, higher, hfilter, hhigher⟩, hle⟩ := split_of_highest hc
    obtain ⟨front, tail, hosrCodes, hfront, htail⟩ := List.filter_eq_append_iff.1 hfilter
    obtain ⟨between, after, rfl, -, hanswers, rfl⟩ := List.filter_eq_cons_iff.1 htail
    obtain ⟨hentry, hentrant, htier⟩ := answersOsr_iff.1 hanswers
    have hsplit : b.codesOf r.method = (m.code.toList ++ front ++ between) ++ c :: after := by
      simp [hcodes, codes, hosrCodes]
    have hserves : b.Serves r c := by
      refine ⟨by simp [hsplit], hentrant, hentry, fun hosr' => ?_,
        fun _ => ⟨htier, fun x hx hxentrant hxentry => ?_⟩⟩
      · exact absurd (hosr'.symm.trans hosr) Bool.false_ne_true
      · rw [hcodes, codes, List.mem_append, Option.mem_toList] at hx
        rcases hx with hx | hx
        · exact absurd (hxentry.symm.trans (InstalledCode.isOsr_eq_false_iff.1 (h.code x hx))) hbci
        · by_cases hlow : r.tier ≤ x.tier
          · exact hle x (List.mem_filter.2 ⟨hx, answersOsr_iff.2 ⟨hxentry, hxentrant, hlow⟩⟩)
          · exact UInt8.le_trans (UInt8.le_of_lt (UInt8.not_le.1 hlow)) htier
    refine ⟨hserves, _, after, hsplit, fun x hx hx' => ?_⟩
    -- Codes after the answer that would do are of a lower tier, and so do not serve.
    obtain ⟨hxtier, hbest⟩ := hx'.highest hosr
    have hlt := hhigher x (List.mem_filter.2
      ⟨hx, answersOsr_iff.2 ⟨hx'.entry, hx'.entrant, hxtier⟩⟩)
    exact UInt8.not_le.2 hlt (hbest c hserves.attached hentrant hentry)

/-- Where there is code that serves, the method answers with code. Standard code is the only one. -/
theorem Method.Filed.exists_compiledCode (h : m.Filed) (hm : b.methods[r.method]? = some m)
    (hc : b.Serves r c) :
    ∃ c', m.compiledCode? r.bci r.tier = some c' ∧ (r.isOsr = false → c' = c) := by
  have hmem := Broker.codesOf_eq hm ▸ hc.attached
  rw [codes, List.mem_append, Option.mem_toList] at hmem
  by_cases hbci : r.bci = invocationEntry
  · have hosr : r.isOsr = false := by simp [Request.isOsr, hbci]
    refine ⟨c, ?_, fun _ => rfl⟩
    have hcode : m.code = some c := hmem.resolve_right fun hx =>
      InstalledCode.isOsr_eq_true_iff.1 (h.osrCodes c hx) (hc.entry.trans hbci)
    rw [compiledCode?, if_pos hbci, hcode]
    simp [Option.filter, hc.tier hosr, hc.entrant]
  · have hosr : r.isOsr = true := by simp [Request.isOsr, hbci]
    have hcode : c ∈ m.osrCodes := hmem.resolve_left fun hx =>
      hbci (hc.entry.symm.trans (InstalledCode.isOsr_eq_false_iff.1 (h.code c hx)))
    have hanswers := answersOsr_iff.2 ⟨hc.entry, hc.entrant, (hc.highest hosr).1⟩
    obtain ⟨_, c', _, _, hc', -⟩ :=
      exists_highest (List.ne_nil_of_mem (List.mem_filter.2 ⟨hcode, hanswers⟩))
    refine ⟨c', by rw [compiledCode?, if_neg hbci]; exact hc', fun hosr' => ?_⟩
    exact absurd (hosr'.symm.trans hosr) Bool.false_ne_true

end

namespace Broker

variable {b : Broker} {r : Request} {unit : TierUnit} {c : InstalledCode}

/-- A broker that takes jobs need not go on. -/
theorem restart_of_accepting (h : b.accepting = true) (unit : TierUnit) : b.restart unit = b := by
  refine if_neg fun hstopped => ?_
  simp [accepting, hstopped.1] at h

/-- Compilation is not disabled where a request is admitted. -/
theorem OpenTo.enabled (h : b.OpenTo r unit) : b.disabled = false := by
  have haccepting := h.accepting
  rw [Broker.accepting, disabled_restart, Bool.and_eq_true] at haccepting
  simpa using haccepting.2

/-- A request that is admitted is answered with the code that is there. -/
theorem OpenTo.answer (h : b.OpenTo r unit) (hstarted : b.initialized = true)
    (hinit : unit.init.failure? = none)
    (hfiled : ∀ ⦃m : Method⦄, b.methods[r.method]? = some m → m.Filed) (hc : b.Serves r c)
    (me : Caller) : ∃ c', b.answer? me r = some (.installed c', b.restart unit) ∧ b.Answers r c' ∧
      (r.isOsr = false → c' = c) := by
  obtain ⟨m, hm, habstract, hintrinsic, hclass⟩ := h.method
  obtain ⟨c', hc', honly⟩ := (hfiled hm).exists_compiledCode hm hc
  refine ⟨c', ?_, (hfiled hm).answers hm hc', honly⟩
  have hdisabled := h.enabled
  have hfit : (b.restart unit).unfit? m = none := by
    have hclass' : (b.restart unit).isInitialized m = true := by
      rw [← hclass]
      unfold restart
      split <;> rfl
    simp [unfit?, habstract, hintrinsic, hclass']
  simp [answer?, hstarted, h.found, enabled?, hinit, hdisabled, h.accepting, methods_restart, hm,
    accepted?, hfit, hc']

/-- A request is open if its unit has jobs taken and its method is of the right kind. -/
theorem exists_openTo {message : Option String}
    (hunit : ((b.unitOf? r.tier).bind (b.units[·]?)).map
      (fun unit => ((b.restart unit).accepting, unit.init.failure?)) = some (true, message))
    (hmethod : b.methods[r.method]?.map
      (fun m => (m.isAbstract, m.isIntrinsic, b.isInitialized m)) = some (false, false, true)) :
    ∃ unit, b.OpenTo r unit ∧ unit.init.failure? = message := by
  obtain ⟨unit, hfound, hrest⟩ := Option.map_eq_some_iff.1 hunit
  obtain ⟨haccepting, hinit⟩ := Prod.mk.inj hrest
  obtain ⟨m, hm, hrest⟩ := Option.map_eq_some_iff.1 hmethod
  simp only [Prod.mk.injEq] at hrest
  obtain ⟨habstract, hintrinsic, hclass⟩ := hrest
  exact ⟨unit, ⟨hfound, haccepting, m, hm, habstract, hintrinsic, hclass⟩, hinit⟩

/-- A request whose back-end has failed to start is turned away for it. -/
theorem OpenTo.turnedAway (h : b.OpenTo r unit) (hstarted : b.initialized = true) {message : String}
    (hinit : unit.init.failure? = some message) (me : Caller) :
    b.answer? me r = some (.rejected (.backendInitFailure (.failed message)), b) := by
  simp [answer?, hstarted, h.found, enabled?, hinit, refuse]

end Broker

/-! ### Whoever asks it -/

namespace RequestStep

variable {me : Caller} {ch : Choices} {b b' : Broker} {turn : Turn} {s : RequestStep} {q : Inquiry}
  {c : InstalledCode}

/-- A turn that answers with code, which the method of the request has given. -/
structure Gives (b : Broker) (r : Request) (c : InstalledCode) (turn : Turn) : Prop where
  /-- The method has answered with the code. -/
  code : ∃ m, b.methods[r.method]? = some m ∧ m.compiledCode? r.bci r.tier = some c
  /-- All methods are as before. -/
  methods : turn.broker.methods = b.methods

/-- A turn that leaves nothing behind does not answer. -/
theorem gives_of_silent {turn' : Turn} {r : Request} (h : some turn' = some turn)
    (hsilent : ∀ c, turn'.reply ≠ some (.outcome (.installed c)))
    (hreply : turn.reply = some (.outcome (.installed c))) : Gives b r c turn := by
  obtain rfl := Option.some.inj h
  exact absurd hreply (hsilent c)

theorem gives_of_answer {turn' : Turn} {r : Request} {m : Method} {c' : InstalledCode}
    (h : some turn' = some turn) (hanswer : turn'.reply = some (.outcome (.installed c')))
    (hmethods : turn'.broker.methods = b.methods) (hm : b.methods[r.method]? = some m)
    (hc : m.compiledCode? r.bci r.tier = some c')
    (hreply : turn.reply = some (.outcome (.installed c))) : Gives b r c turn := by
  obtain rfl := Option.some.inj h
  rw [hanswer] at hreply
  obtain rfl := Outcome.installed.inj (Reply.outcome.inj (Option.some.inj hreply))
  exact ⟨⟨m, hm, hc⟩, hmethods⟩

theorem leave_silent {t : TaskId} {task : Task} {gaveUp : Bool}
    (h : leave b' q t task gaveUp = some turn) : turn.reply ≠ some (.outcome (.installed c)) := by
  unfold leave at h
  split at h <;> obtain rfl := Option.some.inj h
  · simp
  · cases gaveUp <;> simp

theorem wakeUp_silent {t : TaskId} {task : Task} {watch : Option Watch}
    (h : wakeUp b ch q t task watch = some turn) : turn.reply ≠ some (.outcome (.installed c)) := by
  unfold wakeUp at h
  repeat' split at h
  all_goals first
    | exact leave_silent h
    | (obtain rfl := Option.some.inj h
       simp)

/-- The code of a task that is complete is what the method answers with. -/
theorem compiledCode_of_answer {m : Method} {r : Request} {id : UInt32} {result : TaskResult}
    (h : answer m r id result = .installed c) : m.compiledCode? r.bci r.tier = some c := by
  unfold answer at h
  repeat' split at h
  all_goals cases h
  assumption

/-- A request is answered with code only if its method has just answered with it. -/
theorem gives_of_run (h : s.run me ch b = some turn)
    (hreply : turn.reply = some (.outcome (.installed c))) : Gives b s.request c turn := by
  cases s with
  | existing q =>
    rw [run] at h
    repeat' split at h
    · exact gives_of_silent h (fun _ => by simp) hreply
    · exact gives_of_answer h rfl rfl ‹_› ‹_› hreply
    · exact gives_of_silent h (fun _ => by simp) hreply
  | stillMissing q =>
    rw [run] at h
    repeat' split at h
    · exact gives_of_silent h (fun _ => by simp) hreply
    · exact gives_of_answer h rfl rfl ‹_› ‹_› hreply
    · exact gives_of_silent h (fun _ => by simp) hreply
  | conclude q id result =>
    rw [run] at h
    split at h
    · exact gives_of_silent h (fun _ => by simp) hreply
    · obtain rfl := Option.some.inj h
      have hanswer := Reply.outcome.inj (Option.some.inj hreply)
      exact ⟨⟨_, ‹_›, compiledCode_of_answer hanswer⟩, rfl⟩
  | attend q t =>
    rw [run] at h
    split at h
    · dsimp only at h
      split at h
      · exact absurd hreply (leave_silent h)
      · exact gives_of_silent h (fun _ => by simp) hreply
    · exact gives_of_silent h (fun _ => by simp) hreply
  | asleep q t bell watch =>
    rw [run] at h
    repeat' split at h
    · exact gives_of_silent h (fun _ => by simp) hreply
    · exact absurd hreply (wakeUp_silent h)
    · cases h
  | _ =>
    rw [run] at h
    (try simp only at h)
    repeat' split at h
    all_goals first
      | exact gives_of_silent h (fun _ => by simp) hreply
      | cases h

end RequestStep

/-! ### Where there is code -/

/-- Regions are attached where there were some before, or by whoever has one in hand. -/
theorem Transfer.attached_cases {ca ca' : CodeCache} {ms ms' : Table (List Region)}
    {k : Option Cargo} {new : List Cargo} {out : List Region} (h : Transfer ca ms k new out ca' ms')
    {j : Nat} {rs' : List Region} (hj : ms'[j]? = some rs') (hne : rs' ≠ []) :
    (∃ r, k = some (.attach r)) ∨ ∃ rs, ms[j]? = some rs ∧ rs ≠ [] := by
  cases h with
  | attach _ _ => exact .inl ⟨_, rfl⟩
  | know =>
    rw [Table.getElem?_add] at hj
    split at hj
    · exact absurd (Option.some.inj hj).symm hne
    · exact .inr ⟨rs', hj, hne⟩
  | detach hm hperm =>
    obtain ⟨x, hx, ⟨-, rfl⟩ | ⟨hmj, -⟩⟩ := Table.exists_of_modify hj
    · exact .inr ⟨rs', hx, hne⟩
    · obtain rfl := Option.some.inj ((hmj ▸ hm).symm.trans hx)
      exact .inr ⟨_, hx, List.ne_nil_of_mem (hperm.mem_iff.2 List.mem_cons_self)⟩
  | _ => exact .inr ⟨rs', hj, hne⟩

/-- Whoever has found that a back-end does not start is to disable compilation. -/
theorem Action.failed_of_run {me : Caller} {ch : Choices} {b : Broker} {turn : Turn} {a : Action}
    (hsound : b.ledger.Sound) (hready : ∀ d ∈ a.duty?, Duty.Ready b.ledger d)
    (hunits : ∀ u ∈ a.units, u < b.units.size) (h : a.run me ch b = some turn) {u : UnitId}
    {x' : TierUnit} (hx' : turn.broker.units[u]? = some x') (hfailed : x'.init.failure?.isSome) :
    (∃ x, b.units[u]? = some x ∧ x'.init = x.init) ∨ .control .disable ∈ turn.next := by
  have hsize := Broker.size_units_of_steady (Action.run_regular h).units
  have stirs {b' : Broker} (hb : b.Stirs b') (hb' : b'.units = turn.broker.units) :
      ∃ x, b.units[u]? = some x ∧ x'.init = x.init := by
    obtain ⟨x, hx, -, hinit⟩ := hb.exists_unit (hb' ▸ hsize) (hb' ▸ hx')
    exact ⟨x, hx, hinit⟩
  cases a with
  | request s => exact .inl (stirs (RequestStep.stirs h) rfl)
  | task s => exact .inl (stirs (TaskStep.stirs h) rfl)
  | control s => exact .inl (stirs (ControlStep.stirs hsound h) rfl)
  | gate s => exact .inl (stirs (GateStep.stirs h).1 rfl)
  | crew s => exact .inl (stirs (CrewStep.stirs hunits h).1 rfl)
  | answer r =>
    obtain rfl := Option.some.inj h
    exact .inl (stirs (.refl b) rfl)
  | fault => cases h
  | worker w s =>
    obtain ⟨worker, unit, hw, hu, h⟩ := worker_run hsound (hready _ rfl).1 h
    have modified {init : InitState} (hinit : init.failure?.isSome = false)
        (hb : turn.broker = b.modifyUnit worker.unit fun x => { x with init := init }) :
        ∃ x, b.units[u]? = some x ∧ x'.init = x.init := by
      rw [hb] at hx'
      obtain ⟨x, hx, ⟨-, rfl⟩ | ⟨-, rfl⟩⟩ := Table.exists_of_modify hx'
      · exact ⟨x', hx, rfl⟩
      · exact absurd (hinit.symm.trans hfailed) Bool.false_ne_true
    cases s with
    | start =>
      rcases WorkerStep.start_turn h with ⟨hb, -⟩ | ⟨-, -, hb⟩
      · exact .inl (stirs (.refl b) (congrArg Broker.units hb).symm)
      · exact .inl (modified rfl hb)
    | starting =>
      rw [WorkerStep.run] at h
      split at h
      · cases h
      all_goals obtain rfl := Option.some.inj h
      · exact .inl (modified rfl rfl)
      · exact .inr List.mem_cons_self
    | _ =>
      exact .inl (stirs (WorkerStep.stirs hu hsound h WorkerStep.noConfusion
        WorkerStep.noConfusion).1 rfl)

namespace System

variable {s : System} {i : ThreadId} {th th' : Thread} {r : Request} {rest : List Action}
  {st : Standing} {c : InstalledCode} {ms : List Move}

/-- The code with which a request is answered is the answer at that moment. -/
theorem Concludes.answers (h : s.Concludes i r rest st ms th') (hs : s.Filed)
    (hreply : th'.reply = some (.outcome (.installed c))) :
    (ms.foldl move s).broker.Answers r c := by
  obtain ⟨before, hwalks, hbefore, hruns, hnext⟩ := h
  rename_i m ch th a post turn st'
  have hturn : turn.reply = some (.outcome (.installed c)) := by
    cases Action.run_leads hbefore hruns.run with
    | on hbefore' _ =>
      obtain ⟨a', post', heq⟩ := hbefore'.exists_cons
      rw [hnext] at heq
      cases heq
    | answered _ hreply' _ => rwa [Thread.after, hreply', Option.some_or, ← hreply'] at hreply
    | served _ hreply' _ => rwa [Thread.after, hreply', Option.some_or, ← hreply'] at hreply
  cases hbefore with
  | step s' hs' =>
    obtain ⟨⟨m', hm', hc⟩, hmethods⟩ := RequestStep.gives_of_run hruns.run hturn
    rw [hs'] at hm' hc
    rw [List.foldl_append, List.foldl_cons, List.foldl_nil, hruns.turned, broker_turned]
    exact (hs.foldl before hm').answers (hmethods ▸ hm') hc
  | lost post => cases hruns.run
  | _ => simp at hnext

/-! ### Every state -/

/-- There is no code where there were no tasks, and where a back-end has failed to start,
compilation is disabled, or about to be. -/
structure Grounded (s : System) : Prop where
  /-- Code was compiled for tasks. -/
  coded : ∀ {k : MethodId} {rs : List Region}, s.broker.attached[k]? = some rs → rs ≠ [] →
    0 < s.broker.tasks.size
  /-- Whoever finds that a back-end does not start disables compilation. -/
  failed : ∀ {u : UnitId} {x : TierUnit}, s.broker.units[u]? = some x →
    x.init.failure?.isSome → s.broker.disabled = true ∨ .control .disable ∈ s.pending

namespace Grounded

variable {s' : System} {ch : Choices}

theorem step (h : s.Grounded) (hs : s.Lawful) (ho : s.Ordered) (hstep : s.step i ch = some s') :
    s'.Grounded := by
  obtain ⟨th, a, post, turn, hth, ha, hrun, rfl, hshift⟩ := hs.shift hstep
  have hmem : a ∈ s.pending := mem_pending.2 ⟨i, th, hth, ha ▸ List.mem_cons_self⟩
  have hready := fun d hd => hs.ready d (mem_duties.2 ⟨a, hmem, hd⟩)
  have hextends := hshift.event.extends
  have grows (hpos : 0 < s.broker.tasks.size) : 0 < turn.broker.tasks.size :=
    Nat.zero_lt_of_lt (hextends.lt_tasks hpos)
  refine ⟨fun hk hne => ?_, fun hx' hfailed => ?_⟩
  · rcases (Action.transfer hs.sound hready hrun).attached_cases hk hne with
      ⟨r, hcargo⟩ | ⟨rs, hrs, hne⟩
    · obtain ⟨w, c, code, rfl⟩ : ∃ w c code, a = .worker w (.attach c code) := by
        unfold Action.cargo? at hcargo
        split at hcargo
        · exact ⟨_, _, _, rfl⟩
        · cases hcargo
        · cases hcargo
      have hknown := hs.known _ (mem_duties.2 ⟨_, hmem, rfl⟩)
      exact grows (Nat.zero_lt_of_lt (hknown.2 c.task rfl))
    · exact grows (h.coded hrs hne)
  · rcases Action.failed_of_run hs.sound hready (ho.unit a hmem) hrun hx' hfailed with
      ⟨x, hx, hinit⟩ | hnext
    · rcases h.failed hx (hinit ▸ hfailed) with hdisabled | hpending
      · exact .inl (hextends.disabled hdisabled)
      · by_cases heq : a = .control .disable
        · subst heq
          left
          rw [Action.run, ControlStep.run] at hrun
          split at hrun <;> obtain rfl := Option.some.inj hrun
          · assumption
          · rfl
        · exact .inr (mem_turned_of_ne hth ha hpending (Ne.symm heq))
    · exact .inr (mem_turned_of_next hth hnext)

theorem call (h : s.Grounded) (c : Call) (n : Nat) : (s.call c n).Grounded :=
  ⟨h.coded, fun hx hfailed => (h.failed hx hfailed).imp_right fun hp =>
    mem_pending_call.2 (.inl hp)⟩

theorem operate (h : s.Grounded) (hs : s.Lawful) (o : Operation) : (s.operate o).Grounded := by
  have hextends := hs.extends_move (.operate o)
  refine ⟨fun hk hne => ?_, fun hx' hfailed => ?_⟩
  · rcases (s.broker.operate_transfer o).attached_cases hk hne with ⟨r, hr⟩ | ⟨rs, hrs, hne⟩
    · cases hr
    · exact Nat.zero_lt_of_lt (hextends.lt_tasks (h.coded hrs hne))
  · have hsize := Broker.size_units_of_steady (s.broker.operate_steady o).units
    obtain ⟨x, hx, -, hinit⟩ := (s.broker.stirs_operate o).exists_unit hsize hx'
    exact (h.failed hx (hinit ▸ hfailed)).imp_left hextends.disabled

end Grounded

theorem grounded_launch {config : Config} {parts : Broker.Parts} {b : Broker}
    (hb : Broker.assemble config parts = .ok b) : (launch b).Grounded := by
  have hunits := Broker.unit_of_assemble hb
  obtain ⟨units, -, rfl⟩ := Broker.exists_of_assemble hb
  refine ⟨fun hk hne => ?_, fun hx hfailed => ?_⟩
  · simp [Broker.attached, launch] at hk
  · obtain ⟨t, -, kind, rfl⟩ := hunits _ (Table.mem_toList_iff.2 ⟨_, hx⟩)
    cases hfailed

theorem Reachable.grounded {config : Config} {parts : Broker.Parts} {b : Broker}
    (hb : Broker.assemble config parts = .ok b) (h : Reachable (launch b) s) : s.Grounded :=
  have hfresh := Broker.fresh_assemble hb
  h.invariant (grounded_launch hb)
    (fun hr h hstep => h.step (hr.lawful hfresh) (hr.ordered hfresh) hstep)
    (fun c n _ h => h.call c n) (fun o hr h => h.operate (hr.lawful hfresh) o)

/-- In every state that a broker can get into, whoever is to make a request is answered only with
the code that is the answer at that moment, however others move meanwhile. And if there is code that
serves, and the request is open to it, its thread comes to an answer alone: if the back-end of the
tier has not failed to start, the answer is such code, and the broker is as it was but for going on;
if it has, the request is turned away for that and the broker is as it was, and somebody is about to
disable compilation. -/
theorem installed_of_run {config : Config} {parts : Broker.Parts} {b : Broker}
    (hb : Broker.assemble config parts = .ok b) (hs : Reachable (launch b) s)
    (hth : s.threads[i]? = some th) (ha : th.agenda = .request (.enter r) :: rest) :
    (∀ ms th' c, s.busy i rest.length ms = true → (ms.foldl move s).threads[i]? = some th' →
      th'.agenda = rest → th'.reply = some (.outcome (.installed c)) →
      (ms.foldl move s).broker.Answers r c) ∧
      ∀ unit c, s.broker.OpenTo r unit → s.broker.Serves r c →
        (unit.init.failure? = none →
          ∃ c', RunsTo i s (s.withThread i (s.broker.restart unit) rest
              (some (.outcome (.installed c')))) ∧
            s.broker.Answers r c' ∧ (r.isOsr = false → c' = c) ∧
            s.broker.Untouched (s.broker.restart unit) ∧
            (s.broker.accepting = true → s.broker.restart unit = s.broker)) ∧
        ∀ message, unit.init.failure? = some message →
          RunsTo i s (s.withThread i s.broker rest
              (some (.outcome (.rejected (.backendInitFailure (.failed message)))))) ∧
            .control .disable ∈ s.pending := by
  have hfiled : s.Filed := by
    obtain ⟨moves, rfl⟩ := reachable_iff_foldl.1 hs
    exact (filed_launch hb).foldl moves
  have hgrounded := hs.grounded hb
  refine ⟨fun ms th' c hbusy hend hrest hreply => ?_, fun unit c hopen hserves => ?_⟩
  · have hconcludes := concludes_of_busy hth (show th.agenda = [.request (.enter r)] ++ rest from ha)
      (.step (.enter r) rfl) hbusy hend hrest
    exact hconcludes.answers hfiled hreply
  · obtain ⟨m, hm, -⟩ := hopen.method
    have hcodes : m.codes ≠ [] := by
      rw [← Broker.codesOf_eq hm]
      exact List.ne_nil_of_mem hserves.attached
    have hstarted : s.broker.initialized = true :=
      (hs.started hb).tasks (hgrounded.coded (Broker.getElem?_attached hm)
        (mt List.map_eq_nil_iff.1 hcodes))
    refine ⟨fun hinit => ?_, fun message hinit => ?_⟩
    · obtain ⟨c', hanswer, hanswers, honly⟩ :=
        hopen.answer hstarted hinit (fun m hm => hfiled hm) hserves (th.caller i)
      exact ⟨c', runsTo_answer hth ha hanswer, hanswers, honly,
        (Broker.Spared.restart s.broker r.method unit).untouched,
        fun haccepting => Broker.restart_of_accepting haccepting unit⟩
    · refine ⟨runsTo_answer hth ha (hopen.turnedAway hstarted hinit (th.caller i)), ?_⟩
      obtain ⟨u, -, hu⟩ := Option.bind_eq_some_iff.1 hopen.found
      refine (hgrounded.failed hu (by rw [hinit]; rfl)).resolve_left ?_
      rw [hopen.enabled]
      exact Bool.false_ne_true

/-- A request for an entry in a loop that is told to wait. -/
def loopRequest : Request :=
  { method := 0, bci := 5, tier := 1, reason := .normal, blocking := true }

/-- The code that is installed for it. -/
def loopCode : InstalledCode :=
  { compileId := 1, tier := 1, entryBci := 5, region := ⟨1, .profiled, 256⟩,
    instructionsSize := 128, entrant := true }

/-- Code was installed for an entry in a loop, and is asked for again. -/
def soloAgain : List Move := soloStart ++ soloLoop 2 ++ [.call (.request loopRequest) 0]

/-- The request is answered with the code, and the code is the answer then. -/
theorem installed_of_soloAgain :
    (∃ unit c', (soloAgain.foldl move (launch .solo)).broker.OpenTo loopRequest unit ∧
      unit.init.failure? = none ∧
      RunsTo 3 (soloAgain.foldl move (launch .solo))
        ((soloAgain.foldl move (launch .solo)).withThread 3
          ((soloAgain.foldl move (launch .solo)).broker.restart unit) []
          (some (.outcome (.installed c'))))) ∧
    ((times 3 7).foldl move (soloAgain.foldl move (launch .solo))).broker.Answers
      loopRequest loopCode := by
  have hsize : ((soloStart ++ soloLoop 2).foldl move (launch .solo)).threads.size = 3 := by
    decide +kernel
  have hthread : (soloAgain.foldl move (launch .solo)).threads[3]? =
      some { agenda := [.request (.enter loopRequest)] } := by
    rw [soloAgain, List.foldl_append]
    exact hsize ▸ Table.getElem?_add_self _ _
  obtain ⟨hsound, hrepeats⟩ :=
    installed_of_run Broker.assemble_solo (reachable_iff_foldl.2 ⟨soloAgain, rfl⟩) hthread rfl
  constructor
  · obtain ⟨unit, hopen, hinit⟩ :
        ∃ unit, (soloAgain.foldl move (launch .solo)).broker.OpenTo loopRequest unit ∧
          unit.init.failure? = none := Broker.exists_openTo (by decide +kernel) (by decide +kernel)
    have hserves : (soloAgain.foldl move (launch .solo)).broker.Serves loopRequest loopCode := by
      decide +kernel
    obtain ⟨c', hruns, -⟩ := (hrepeats unit loopCode hopen hserves).1 hinit
    exact ⟨unit, c', hopen, hinit, hruns⟩
  · have hend : ((times 3 7).foldl move (soloAgain.foldl move (launch .solo))).threads[3]?.map
        (fun th => (th.agenda.isEmpty, th.reply)) =
          some (true, some (.outcome (.installed loopCode))) := by decide +kernel
    obtain ⟨th', hth', hafter⟩ := Option.map_eq_some_iff.1 hend
    obtain ⟨hempty, hreply⟩ := Prod.mk.inj hafter
    exact hsound (times 3 7) th' _ (by decide +kernel) hth' (List.isEmpty_iff.1 hempty) hreply

/-- Jobs are taken, a request is open, and the code serves it; and the thread that makes it comes to
the outcome alone. -/
def MeetsWith (s : System) (i : ThreadId) (r : Request) (c : InstalledCode) (o : Outcome) : Prop :=
  s.broker.accepting = true ∧ (∃ unit, s.broker.OpenTo r unit) ∧ s.broker.Serves r c ∧
    ∃ n, ((times i n).foldl move s).threads[i]?.map (fun th => (th.agenda.isEmpty, th.reply)) =
      some (true, some (.outcome o))

/-- A back-end installs two codes in one compile for an entry in a loop, which is asked for
again. -/
def soloDouble : List Move :=
  soloStart ++ [.call (.request loopRequest) 0] ++ times 2 21 ++ times 1 11
    ++ [.step 1 { move := some (.install 256 128) }, .step 1 {},
      .step 1 { move := some (.install 256 192) }, .step 1 {}, .step 1 { move := some .finish }]
    ++ times 1 12 ++ times 2 6 ++ [.call (.request loopRequest) 0]

/-- The code that is installed second. -/
def secondCode : InstalledCode :=
  { loopCode with region := ⟨2, .profiled, 256⟩, instructionsSize := 192 }

/-- The second tier has installed code for an entry in a loop when the back-end of the first does
not start. The entry is asked for at the first tier before its worker disables compilation. -/
def duoFailing : List Move :=
  times 0 8 ++ [.operate (.addClass { name := "C" }),
      .operate (.addMethod { name := "f", className := "C" }), .step 2 {},
      .step 2 { started := some (.ok ()) }, .call (.request { loopRequest with tier := 2 }) 0]
    ++ times 3 21 ++ times 2 11
    ++ [.step 2 { move := some (.install 256 128) }, .step 2 {}, .step 2 { move := some .finish }]
    ++ times 2 12 ++ times 3 6
    ++ [.step 1 {}, .step 1 { started := some (.error "no code generator") },
      .call (.request loopRequest) 0]

/-- The code of the second tier. -/
def upperCode : InstalledCode :=
  { loopCode with tier := 2, region := ⟨1, .nonProfiled, 256⟩ }

/-- Code that serves is not always the answer: of two codes that serve, the answer is the second;
and a request at a tier whose back-end has just failed to start is turned away. -/
theorem code_not_answered :
    ((soloDouble.foldl move (launch .solo)).MeetsWith 3 loopRequest loopCode (.installed secondCode) ∧
        secondCode ≠ loopCode) ∧
      (duoFailing.foldl move (launch .duo)).MeetsWith 4 loopRequest upperCode
        (.rejected (.backendInitFailure (.failed "no code generator"))) := by
  refine ⟨⟨⟨by decide +kernel, ?_, by decide +kernel, 7, by decide +kernel⟩, by decide⟩,
    by decide +kernel, ?_, by decide +kernel, 7, by decide +kernel⟩
  · obtain ⟨unit, hopen, -⟩ : ∃ unit,
        (soloDouble.foldl move (launch .solo)).broker.OpenTo loopRequest unit ∧
          unit.init.failure? = none := Broker.exists_openTo (by decide +kernel) (by decide +kernel)
    exact ⟨unit, hopen⟩
  · obtain ⟨unit, hopen, -⟩ : ∃ unit,
        (duoFailing.foldl move (launch .duo)).broker.OpenTo loopRequest unit ∧
          unit.init.failure? = some "no code generator" :=
      Broker.exists_openTo (by decide +kernel) (by decide +kernel)
    exact ⟨unit, hopen⟩

end System

end JitBroker
