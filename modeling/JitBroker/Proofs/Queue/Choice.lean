import Mathlib.Algebra.Order.Ring.Rat
import Mathlib.Data.List.Induction
import Mathlib.Data.Prod.Lex
import JitBroker.Proofs.Ledger.Withdrawal

/-!
# What a selector chooses

The claims of tasks to be chosen are compared by whether somebody waits for the task, then by
whether it is for an OSR entry, then by its rate. This is the order of their *merits*
(`Rank.less_iff`), for rates in any linear order.

What a selector picks is said of the items it is offered, oldest first, whatever they are:

* in order of arrival, the items are cut at the first one that is not obsolete (`Selector.InOrder`);
* by hotness, the obsolete items are reported, and of the others the one of the highest merit is
  chosen that comes first (`Selector.Hottest`).

It is so for candidates (`Selection.hottest_foldl`, `Selector.picks_select`), and for the tasks of
a queue that they stand for (`Broker.exists_picks`): to take the picked ones out of their slots does
not change what is picked.
-/

namespace JitBroker

/-! ### Merits -/

namespace Rank

variable {R : Type} [LinearOrder R]

/-- The claim of a task as a value of a linear order, for rates made of count and age. -/
def merit (rate : Nat → Nat → R) (r : Rank) : Bool ×ₗ Bool ×ₗ R :=
  toLex (r.blocking, toLex (r.osr, rate r.hot r.age))

theorem less_iff {rate : Nat → Nat → R} {a b : Rank} :
    a.less rate b = true ↔ a.merit rate < b.merit rate := by
  rw [merit, merit, Prod.Lex.toLex_lt_toLex, Prod.Lex.toLex_lt_toLex, less]
  cases a.blocking <;> cases b.blocking <;> cases a.osr <;> cases b.osr <;> simp

end Rank

/-! ### Picks -/

namespace Selector

variable {α β : Type} [LinearOrder β] {obsolete : α → Bool} {merit : α → β}

/-- In order of arrival: the obsolete items before the first one that is not obsolete are reported,
and that one is chosen. -/
structure InOrder (obsolete : α → Bool) (items : List α) (chosen : Option α) (stale : List α) :
    Prop where
  /-- The items that are reported come first, then the chosen one. -/
  split : ∃ behind, items = stale ++ chosen.toList ++ behind
  /-- Those that are reported are obsolete. -/
  of_stale : ∀ x ∈ stale, obsolete x = true
  /-- The chosen one is not. -/
  of_chosen : ∀ x ∈ chosen, obsolete x = false
  /-- None is chosen only if all are obsolete. -/
  of_none : chosen = none → items = stale

/-- By hotness: the obsolete items are reported, and of the others the first one of the highest
merit is chosen. -/
structure Hottest (obsolete : α → Bool) (merit : α → β) (items : List α) (chosen : Option α)
    (stale : List α) : Prop where
  /-- Those that are reported are the obsolete ones. -/
  stale_eq : stale = items.filter obsolete
  /-- The chosen one is not obsolete; the others before it have less merit, and those after it no
  more. -/
  of_chosen : ∀ x ∈ chosen, obsolete x = false ∧ ∃ before after, items = before ++ x :: after ∧
    (∀ y ∈ before, obsolete y = false → merit y < merit x) ∧
    ∀ y ∈ after, obsolete y = false → merit y ≤ merit x
  /-- None is chosen only if all are obsolete. -/
  of_none : chosen = none → ∀ x ∈ items, obsolete x = true

/-- The picks from the items before one that is obsolete are made with it. -/
theorem InOrder.cons {items stale : List α} {chosen : Option α} {x : α}
    (h : InOrder obsolete items chosen stale) (hx : obsolete x = true) :
    InOrder obsolete (x :: items) chosen (x :: stale) := by
  obtain ⟨⟨behind, hsplit⟩, hstale, hchosen, hnone⟩ := h
  exact ⟨⟨behind, congrArg (x :: ·) hsplit⟩, List.forall_mem_cons.2 ⟨hx, hstale⟩, hchosen,
    fun h => congrArg (x :: ·) (hnone h)⟩

namespace Hottest

variable {items stale : List α} {chosen : Option α} {c x : α}

/-- One more item that is obsolete is reported, and changes nothing else. -/
theorem concat_obsolete (h : Hottest obsolete merit items chosen stale) (hc : obsolete c = true) :
    Hottest obsolete merit (items ++ [c]) chosen (stale ++ [c]) := by
  obtain ⟨hstale, hchosen, hnone⟩ := h
  refine ⟨by simp [hstale, hc], fun x hx => ?_, fun h => ?_⟩
  · obtain ⟨hx, before, after, rfl, hbefore, hafter⟩ := hchosen x hx
    refine ⟨hx, before, after ++ [c], by simp, hbefore, fun y hy hopen => ?_⟩
    rcases List.mem_append.1 hy with hy | hy
    · exact hafter y hy hopen
    · rw [List.mem_singleton.1 hy, hc] at hopen
      cases hopen
  · exact List.forall_mem_append.2 ⟨hnone h, List.forall_mem_singleton.2 hc⟩

/-- The first item that is not obsolete is chosen. -/
theorem concat_first (h : Hottest obsolete merit items none stale) (hc : obsolete c = false) :
    Hottest obsolete merit (items ++ [c]) (some c) stale := by
  obtain ⟨hstale, -, hnone⟩ := h
  refine ⟨by simp [hstale, hc], fun x hx => ?_, nofun⟩
  obtain rfl := Option.some.inj hx
  refine ⟨hc, items, [], rfl, fun y hy hopen => ?_, nofun⟩
  rw [hnone rfl y hy] at hopen
  cases hopen

/-- A later item of more merit is chosen instead. -/
theorem concat_better (h : Hottest obsolete merit items (some x) stale) (hc : obsolete c = false)
    (hlt : merit x < merit c) : Hottest obsolete merit (items ++ [c]) (some c) stale := by
  obtain ⟨hstale, hchosen, -⟩ := h
  refine ⟨by simp [hstale, hc], fun z hz => ?_, nofun⟩
  obtain rfl := Option.some.inj hz
  obtain ⟨-, before, after, rfl, hbefore, hafter⟩ := hchosen x rfl
  refine ⟨hc, _, [], rfl, fun y hy hopen => ?_, nofun⟩
  rcases List.mem_append.1 hy with hy | hy
  · exact (hbefore y hy hopen).trans hlt
  · rcases List.mem_cons.1 hy with rfl | hy
    · exact hlt
    · exact (hafter y hy hopen).trans_lt hlt

/-- A later item of no more merit is passed over. -/
theorem concat_worse (h : Hottest obsolete merit items (some x) stale) (hc : obsolete c = false)
    (hle : merit c ≤ merit x) : Hottest obsolete merit (items ++ [c]) (some x) stale := by
  obtain ⟨hstale, hchosen, -⟩ := h
  refine ⟨by simp [hstale, hc], fun z hz => ?_, nofun⟩
  obtain rfl := Option.some.inj hz
  obtain ⟨hx, before, after, rfl, hbefore, hafter⟩ := hchosen x rfl
  refine ⟨hx, before, after ++ [c], by simp, hbefore, fun y hy hopen => ?_⟩
  rcases List.mem_append.1 hy with hy | hy
  · exact hafter y hy hopen
  · exact List.mem_singleton.1 hy ▸ hle

end Hottest

end Selector

/-- What a policy picks of items, oldest first: the one to run, and the obsolete ones that were
seen. -/
def Selector.Picks {α β : Type} [LinearOrder β] (s : Selector) (obsolete : α → Bool) (merit : α → β)
    (items : List α) (chosen : Option α) (stale : List α) : Prop :=
  match s with
  | .fifo => InOrder obsolete items chosen stale
  | .hottest => Hottest obsolete merit items chosen stale

section

variable {α β γ : Type} [LinearOrder β] {s : Selector} {obsolete : α → Bool} {merit : α → β}
  {items stale : List α} {chosen : Option α}

/-- No policy chooses an obsolete item. -/
theorem Selector.Picks.not_obsolete (h : s.Picks obsolete merit items chosen stale) {x : α}
    (hx : x ∈ chosen) : obsolete x = false := by
  cases s with
  | fifo => exact InOrder.of_chosen h x hx
  | hottest => exact (Hottest.of_chosen h x hx).1

/-- The items that a policy reports, and then the one that it chooses, are among those it is
offered. -/
theorem Selector.Picks.subperm (h : s.Picks obsolete merit items chosen stale) :
    (stale ++ chosen.toList).Subperm items := by
  cases s with
  | fifo =>
    obtain ⟨behind, rfl⟩ := InOrder.split h
    exact (List.sublist_append_left _ _).subperm
  | hottest =>
    obtain ⟨rfl, hchosen, -⟩ := h
    refine List.Subperm.trans ?_ (List.filter_append_perm obsolete items).subperm
    refine (List.subperm_append_left _).2 ?_
    cases chosen with
    | none => exact List.nil_subperm
    | some x =>
      obtain ⟨hx, before, after, rfl, -⟩ := hchosen x rfl
      exact List.singleton_subperm_iff.2 (List.mem_filter.2 ⟨by simp, by simp [hx]⟩)

/-- What is picked of items by what their images are is picked of the images. -/
theorem Selector.Picks.map {f : γ → α} {items stale : List γ} {chosen : Option γ}
    (h : s.Picks (obsolete ∘ f) (merit ∘ f) items chosen stale) :
    s.Picks obsolete merit (items.map f) (chosen.map f) (stale.map f) := by
  cases s with
  | fifo =>
    obtain ⟨⟨behind, rfl⟩, hstale, hchosen, hnone⟩ := h
    refine ⟨⟨behind.map f, ?_⟩, by simpa using hstale, by simpa using hchosen, fun h => ?_⟩
    · cases chosen <;> simp
    · rw [hnone (Option.map_eq_none_iff.1 h)]
  | hottest =>
    obtain ⟨rfl, hchosen, hnone⟩ := h
    refine ⟨by rw [List.filter_map], fun x hx => ?_, fun h => ?_⟩
    · obtain ⟨y, hy, rfl⟩ := Option.map_eq_some_iff.1 hx
      obtain ⟨hopen, before, after, rfl, hbefore, hafter⟩ := hchosen y hy
      exact ⟨hopen, before.map f, after.map f, by simp, by simpa using hbefore,
        by simpa using hafter⟩
    · simpa using hnone (Option.map_eq_none_iff.1 h)

/-- What is picked of images is the images of what is picked. -/
theorem Selector.Picks.of_map {f : γ → α} {items : List γ}
    (h : s.Picks obsolete merit (items.map f) chosen stale) :
    ∃ (chosen' : Option γ) (stale' : List γ), chosen = chosen'.map f ∧ stale = stale'.map f ∧
      s.Picks (obsolete ∘ f) (merit ∘ f) items chosen' stale' := by
  cases s with
  | fifo =>
    obtain ⟨⟨behind, hsplit⟩, hstale, hchosen, hnone⟩ := h
    rw [List.map_eq_append_iff] at hsplit
    obtain ⟨front, behind, rfl, hfront, rfl⟩ := hsplit
    rw [List.map_eq_append_iff] at hfront
    obtain ⟨stale, picked, rfl, rfl, hpicked⟩ := hfront
    cases chosen with
    | none =>
      obtain rfl : picked = [] := by simpa using hpicked
      refine ⟨none, stale, rfl, rfl, ⟨behind, rfl⟩, by simpa using hstale, nofun, fun _ => ?_⟩
      have := congrArg List.length (hnone rfl)
      rw [List.length_map, List.length_map, List.length_append, List.append_nil] at this
      rw [List.append_nil, List.eq_nil_of_length_eq_zero (l := behind) (by omega), List.append_nil]
    | some x =>
      obtain ⟨y, rfl, rfl⟩ : ∃ y, picked = [y] ∧ f y = x := by
        simpa [List.map_eq_singleton_iff] using hpicked
      refine ⟨some y, stale, rfl, rfl, ⟨behind, rfl⟩, by simpa using hstale, fun z hz => ?_, nofun⟩
      exact Option.some.inj hz ▸ hchosen _ rfl
  | hottest =>
    obtain ⟨hstale, hchosen, hnone⟩ := h
    rw [List.filter_map] at hstale
    cases chosen with
    | none =>
      exact ⟨none, _, rfl, hstale, rfl, nofun, fun _ => by simpa using hnone rfl⟩
    | some x =>
      obtain ⟨hx, before, after, hsplit, hbefore, hafter⟩ := hchosen x rfl
      rw [List.map_eq_append_iff] at hsplit
      obtain ⟨before, tail, rfl, rfl, htail⟩ := hsplit
      rw [List.map_eq_cons_iff] at htail
      obtain ⟨y, after, rfl, rfl, rfl⟩ := htail
      refine ⟨some y, _, rfl, hstale, rfl, fun z hz => ?_, nofun⟩
      obtain rfl := Option.some.inj hz
      exact ⟨hx, before, after, rfl, by simpa using hbefore, by simpa using hafter⟩

end

/-! ### Candidates -/

namespace Selection

/-- In order of arrival the candidates are cut at the first one that is not obsolete. -/
theorem picks_inOrder (cs : List Candidate) : ∃ chosen stale,
    (inOrder cs).chosen = chosen.map Candidate.slot ∧
    (inOrder cs).stale = stale.map Candidate.slot ∧
    Selector.InOrder Candidate.obsolete cs chosen stale := by
  induction cs with
  | nil =>
    exact ⟨none, [], rfl, rfl, ⟨[], rfl⟩, List.forall_mem_nil _, (fun x h => by cases h),
      fun _ => rfl⟩
  | cons c cs ih =>
    rw [inOrder]
    split
    · rename_i hc
      obtain ⟨chosen, stale, hchosen, hstale, h⟩ := ih
      exact ⟨chosen, c :: stale, hchosen, congrArg (c.slot :: ·) hstale, h.cons hc⟩
    · rename_i hc
      refine ⟨some c, [], rfl, rfl, ⟨cs, rfl⟩, List.forall_mem_nil _, fun x hx => ?_,
        fun h => by cases h⟩
      exact Option.some.inj hx ▸ Bool.eq_false_of_not_eq_true hc

/-- The best candidate so far is the first one of the highest merit. -/
theorem hottest_foldl {R : Type} [LinearOrder R] (rate : Nat → Nat → R) (cs : List Candidate) :
    Selector.Hottest Candidate.obsolete (fun c => c.rank.merit rate) cs
      ((cs.filter (!·.obsolete)).foldl (better rate) none) (cs.filter Candidate.obsolete) := by
  -- The best so far is known for all candidates but the last one.
  induction cs using List.reverseRecOn with
  | nil => exact ⟨rfl, nofun, nofun⟩
  | append_singleton cs c ih =>
    cases hc : c.obsolete with
    | true => simpa [hc] using ih.concat_obsolete hc
    | false =>
      simp only [List.filter_append, List.filter_cons, hc, Bool.not_false, if_true, List.filter_nil,
        List.foldl_append, List.foldl_cons, List.foldl_nil, Bool.false_eq_true, if_false,
        List.append_nil]
      cases hbest : (cs.filter (!·.obsolete)).foldl (better rate) none with
      | none => exact (hbest ▸ ih).concat_first hc
      | some x =>
        rw [hbest] at ih
        rw [better]
        split
        · exact ih.concat_better hc (Rank.less_iff.1 ‹_›)
        · exact ih.concat_worse hc (not_lt.1 (mt Rank.less_iff.2 ‹_›))

end Selection

/-- A selector picks slots of candidates as its policy says. -/
theorem Selector.picks_select (s : Selector) (cs : List Candidate) : ∃ chosen stale,
    (s.select cs).chosen = chosen.map Candidate.slot ∧
    (s.select cs).stale = stale.map Candidate.slot ∧
    s.Picks Candidate.obsolete (fun c => c.rank.merit Rate.ofWait) cs chosen stale := by
  cases s with
  | fifo => exact Selection.picks_inOrder cs
  | hottest => exact ⟨_, _, rfl, rfl, Selection.hottest_foldl Rate.ofWait cs⟩

/-! ### Tasks -/

/-- Whether a task must not run, since its method was redefined or its class unloaded. -/
def Broker.isObsolete (b : Broker) (t : TaskId) : Bool :=
  match b.tasks[t]?.bind fun x => b.methods[x.method]? with
  | some m => b.isUnloaded m || m.isOld
  | none => false

/-- The claim of a task to be chosen. -/
def Broker.rankOf (b : Broker) (x : Task) : Rank where
  blocking := x.blocking
  osr := x.isOsr
  hot := x.hot.toNat
  age := (b.clock - x.requestedAt) / 1000

/-- The merit of a task, with the rate that doubles give; one that does not exist is like a new one
that nobody asks for. -/
def Broker.merit (b : Broker) (t : TaskId) : Bool ×ₗ Bool ×ₗ ℚ :=
  ((b.tasks[t]?.map b.rankOf).getD ⟨false, false, 0, 0⟩).merit Rate.ofWait

/-- The tasks exist, and so do their methods. -/
def Broker.Knows (b : Broker) (ts : List TaskId) : Prop :=
  ∀ t ∈ ts, ∃ x m, b.tasks[t]? = some x ∧ b.methods[x.method]? = some m

namespace CompileQueue

open TaskList

variable {q : CompileQueue} {es : Entries}

/-- Taking entries out of their slots gives their tasks, in the same order. -/
theorem exists_unlinkAll_map (h : q.list.Holds es) {es' : Entries} (hsub : es'.Subperm es) :
    ∃ q', q.unlinkAll? (es'.map (·.1)) = some (es'.map (·.2), q') ∧
      ∃ kept, q'.list.Holds kept ∧ es.Perm (es' ++ kept) := by
  induction es' generalizing q es with
  | nil => exact ⟨q, rfl, es, h, .refl _⟩
  | cons e es' ih =>
    obtain ⟨s, t⟩ := e
    have hmem : (s, t) ∈ es := hsub.subset List.mem_cons_self
    obtain ⟨l, hl⟩ := h.exists_unlink hmem
    obtain ⟨kept, hkept, hperm, -⟩ := h.exists_sheds hl
    have hrest : es'.Subperm kept := (List.subperm_cons (s, t)).1 (hsub.trans hperm.subperm)
    obtain ⟨q', hq', kept', hkept', hperm'⟩ :=
      ih (q := { q with list := l, removed := q.removed + 1 }) hkept hrest
    refine ⟨q', by simp [unlinkAll?, unlink?, hl, hq'], kept', hkept', ?_⟩
    exact hperm.trans (hperm'.cons _)

end CompileQueue

namespace Broker

variable {b : Broker}

/-- The candidate that stands for an entry. -/
def candidate (b : Broker) (e : Nat × TaskId) : Candidate where
  slot := e.1
  rank := (b.tasks[e.2]?.map b.rankOf).getD ⟨false, false, 0, 0⟩
  obsolete := b.isObsolete e.2

theorem candidates_eq {queue : CompileQueue} {es : TaskList.Entries} (h : queue.list.Holds es)
    (hknown : b.Knows (es.map (·.2))) :
    b.candidates queue = es.map b.candidate := by
  rw [candidates, h.entries_eq, ← List.filterMap_eq_map]
  refine List.filterMap_congr fun e he => ?_
  obtain ⟨x, m, hx, hm⟩ := hknown e.2 (List.mem_map_of_mem he)
  simp only [candidate?, Function.comp_apply, candidate, isObsolete, rankOf, hx, hm,
    Option.bind_eq_bind, Option.bind_some, Option.map_some, Option.getD_some]
  rfl

/-- Of a sound queue, the selector picks what its policy says of the tasks in it. -/
theorem exists_picks (b : Broker) (u : UnitId) (queue : CompileQueue) (hsound : queue.list.Sound)
    (hknown : b.Knows queue.list.toList) :
    ∃ chosen stale b', b.select? u queue = some (chosen, stale, b') ∧
      queue.selector.Picks b.isObsolete b.merit queue.list.toList chosen stale := by
  obtain ⟨es, h⟩ := hsound
  rw [h.toList_eq] at hknown ⊢
  obtain ⟨cchosen, cstale, hchosen, hstale, hpicks⟩ :=
    queue.selector.picks_select (b.candidates queue)
  rw [candidates_eq h hknown] at hpicks
  obtain ⟨echosen, estale, rfl, rfl, hentries⟩ := hpicks.of_map
  -- The entries are distinct, so that taking some of them out leaves the chosen one in place.
  have hsub := hentries.subperm
  obtain ⟨q₁, hq₁, kept, hkept, hperm⟩ :=
    CompileQueue.exists_unlinkAll_map h ((List.sublist_append_left _ _).subperm.trans hsub)
  have hleft : echosen.toList.Subperm kept :=
    (List.subperm_append_left _).1 (hsub.trans hperm.subperm)
  obtain ⟨q₂, hq₂, -⟩ := CompileQueue.exists_unlinkAll_map hkept hleft
  have hslots : (queue.selector.select (b.candidates queue)).stale = estale.map (·.1) := by
    rw [hstale, List.map_map]
    rfl
  have hslot : (queue.selector.select (b.candidates queue)).chosen.toList =
      echosen.toList.map (·.1) := by
    rw [hchosen]
    cases echosen <;> rfl
  have htasks : queue.selector.Picks (b.isObsolete ∘ Prod.snd) (b.merit ∘ Prod.snd) es echosen
    estale := hentries
  obtain ⟨b', hb'⟩ : ∃ b', b.select? u queue =
      some (echosen.map (·.2), estale.map (·.2), b') := by
    simp only [select?, hslots, hslot, hq₁, hq₂, Option.bind_eq_bind, Option.bind_some,
      Option.pure_def]
    cases echosen <;> exact ⟨_, rfl⟩
  exact ⟨_, _, b', hb', htasks.map⟩

end Broker

end JitBroker
