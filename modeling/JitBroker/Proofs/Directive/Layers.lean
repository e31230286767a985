import Mathlib.Data.List.Forall2
import JitBroker.Directive.Stack

/-!
# The layers of a directives stack

Sets are pushed on a stack, one by one or as the sets of a file, and taken off again. What was
changed makes the history of the stack, and the history alone tells what is on it: going back in
time, a set that was pushed is still there unless it was taken off since, and what was taken off is
the latest that was there (`DirectiveStack.standing`). Under these sets lies the default set.

An order that is refused changes nothing. A set is refused if there is no room for it, and a file
if it is no JSON document of the right kind, whatever reads it, if one of its sets has no pattern or
one that cannot be read, or if there is no room for all its sets
(`DirectiveStack.pushText_eq_error_iff`).

* `DirectiveStack.Tells.obey`: one order keeps stack and history in agreement;
* `DirectiveStack.layered_of_run`: what holds of a stack after any row of orders.
-/

namespace JitBroker

/-- All results for a list are there if each of them is. -/
theorem mapM_eq_ok_iff {α β ε : Type} {f : α → Except ε β} {as : List α} {bs : List β} :
    as.mapM f = .ok bs ↔ List.Forall₂ (fun a b => f a = .ok b) as bs := by
  induction as generalizing bs with
  | nil => simp [pure, Except.pure, eq_comm]
  | cons a as ih =>
    rw [List.mapM_cons, List.forall₂_cons_left_iff]
    cases ha : f a with
    | error e => simp [bind, Except.bind]
    | ok b =>
      cases has : as.mapM f with
      | error e =>
        refine ⟨nofun, ?_⟩
        rintro ⟨b', bs', -, hbs, rfl⟩
        rw [← ih, has] at hbs
        cases hbs
      | ok bs' =>
        constructor
        · intro h
          exact ⟨b, bs', rfl, ih.1 has, (Except.ok.inj h).symm⟩
        · rintro ⟨_, bs'', hb, hbs, rfl⟩
          obtain rfl := Except.ok.inj hb
          obtain rfl := Except.ok.inj (has.symm.trans (ih.2 hbs))
          rfl

/-- What is related to the members of a list makes a list if there is something for each of them. -/
theorem exists_forall₂_iff {α β : Type} {R : α → β → Prop} {as : List α} :
    (∃ bs, List.Forall₂ R as bs) ↔ ∀ a ∈ as, ∃ b, R a b := by
  induction as with
  | nil => exact ⟨fun _ _ h => absurd h List.not_mem_nil, fun _ => ⟨[], .nil⟩⟩
  | cons a as ih =>
    rw [List.forall_mem_cons, ← ih]
    constructor
    · rintro ⟨_, h⟩
      obtain ⟨b, bs, hb, hbs, -⟩ := List.forall₂_cons_left_iff.1 h
      exact ⟨⟨b, hb⟩, bs, hbs⟩
    · rintro ⟨⟨b, hb⟩, bs, hbs⟩
      exact ⟨b :: bs, .cons hb hbs⟩

/-- There are results for a list if there is one for each member. -/
theorem exists_mapM_iff {α β ε : Type} {f : α → Except ε β} {as : List α} :
    (∃ bs, as.mapM f = .ok bs) ↔ ∀ a ∈ as, ∃ b, f a = .ok b := by
  simp only [mapM_eq_ok_iff]
  exact exists_forall₂_iff

/-! ### Files -/

/-- Whether an entry has patterns, all of which can be read. -/
def DirectiveEntry.Readable (e : DirectiveEntry) : Prop :=
  e.patterns ≠ [] ∧ ∀ t ∈ e.patterns, MethodPattern.parse? t.toList ≠ none

/-- The entries of a file, if it is a JSON document of the right kind. -/
def DirectiveSet.entriesOfText? (read : String → Option Json) (text : String) :
    Option (List DirectiveEntry) :=
  (read text).bind entries?

/-- A pattern is read if there is one of this text. -/
theorem MethodPattern.exists_read_iff {t : String} :
    (∃ p, read t = .ok p) ↔ parse? t.toList ≠ none := by
  unfold read
  cases parse? t.toList <;> simp

/-- An entry stands for a set if and only if it is readable. -/
theorem DirectiveEntry.exists_resolve_iff {e : DirectiveEntry} :
    (∃ x, e.resolve = .ok x) ↔ e.Readable := by
  have hread : (∃ ps, e.patterns.mapM MethodPattern.read = .ok ps) ↔
      ∀ t ∈ e.patterns, MethodPattern.parse? t.toList ≠ none := by
    simp only [exists_mapM_iff, MethodPattern.exists_read_iff]
  unfold resolve Readable
  rw [← hread]
  by_cases hp : e.patterns = []
  · simp [hp, throw, throwThe, MonadExceptOf.throw, bind, Except.bind]
  · cases e.patterns.mapM MethodPattern.read <;>
      simp [hp, bind, Except.bind, pure, Except.pure]

/-- The sets of a file are those of its entries, in order. -/
theorem DirectiveSet.ofText_eq_ok_iff {read : String → Option Json} {text : String}
    {sets : List DirectiveSet} :
    ofText read text = .ok sets ↔ ∃ es, entriesOfText? read text = some es ∧
      List.Forall₂ (fun e x => e.resolve = .ok x) es sets := by
  unfold ofText entriesOfText?
  cases read text with
  | none => simp
  | some v =>
    simp only [ofJson, Option.bind_some]
    cases entries? v with
    | none => simp
    | some es => simp [mapM_eq_ok_iff]

/-- A file has sets if it is of the right kind and all its entries are readable. -/
theorem DirectiveSet.exists_ofText_iff {read : String → Option Json} {text : String} :
    (∃ sets, ofText read text = .ok sets) ↔
      ∃ es, entriesOfText? read text = some es ∧ ∀ e ∈ es, e.Readable := by
  simp only [ofText_eq_ok_iff, ← mapM_eq_ok_iff, ← DirectiveEntry.exists_resolve_iff]
  constructor
  · rintro ⟨sets, es, hes, hsets⟩
    exact ⟨es, hes, exists_mapM_iff.1 ⟨sets, hsets⟩⟩
  · rintro ⟨es, hes, hall⟩
    obtain ⟨sets, hsets⟩ := exists_mapM_iff.2 hall
    exact ⟨sets, es, hes, hsets⟩

namespace DirectiveStack

/-! ### Orders and changes -/

/-- What a stack may be asked to do. -/
inductive Order where
  /-- Push a set. -/
  | push (x : DirectiveSet)
  /-- Push the sets of a file. -/
  | pushText (text : String)
  /-- Pop sets. -/
  | pop (count : Nat)
  /-- Pop all sets. -/
  | clear

/-- How many sets an order has pushed or popped, and the stack after it, with a reader of JSON
documents. An order that is refused leaves the stack alone. -/
def obey (read : String → Option Json) (s : DirectiveStack) :
    Order → Except DirectiveError Nat × DirectiveStack
  | .push x =>
    match s.push x with
    | .ok s' => (.ok 1, s')
    | .error e => (.error e, s)
  | .pushText text =>
    match s.pushText read text with
    | .ok (n, s') => (.ok n, s')
    | .error e => (.error e, s)
  | .pop count => (.ok (s.pop count).1, (s.pop count).2)
  | .clear => (.ok s.pushed.length, s.clear)

/-- What is changed on a stack. -/
inductive Change where
  /-- A set is pushed. -/
  | pushed (x : DirectiveSet)
  /-- A set is popped. -/
  | popped

/-- What an order with this answer has changed, latest first. Of the sets of a file the first is
pushed last. -/
def changes (read : String → Option Json) (o : Order) :
    Except DirectiveError Nat → List Change
  | .error _ => []
  | .ok n =>
    match o with
    | .push x => [.pushed x]
    | .pushText text => ((DirectiveSet.ofText read text).toOption.getD []).map .pushed
    | .pop _ | .clear => .replicate n .popped

/-- The sets that are there after a history, latest first, and of these all but the latest `n`. The
history begins with the latest change. -/
def standing : Nat → List Change → List DirectiveSet
  | _, [] => []
  | n, .popped :: h => standing (n + 1) h
  | 0, .pushed x :: h => x :: standing 0 h
  | n + 1, .pushed _ :: h => standing n h

variable {read : String → Option Json} {s s' : DirectiveStack} {limit n : Nat} {h : List Change}
  {text : String}

theorem standing_eq_drop (n : Nat) (h : List Change) : standing n h = (standing 0 h).drop n := by
  induction h generalizing n with
  | nil => simp [standing]
  | cons c h ih =>
    cases c with
    | popped => rw [standing, standing, ih, ih 1, List.drop_drop, Nat.add_comm]
    | pushed x => cases n with
      | zero => rfl
      | succ n => rw [standing, standing, ih n, List.drop_succ_cons]

theorem standing_popped (count : Nat) (h : List Change) :
    standing n (.replicate count .popped ++ h) = standing (n + count) h := by
  induction count generalizing n with
  | zero => rfl
  | succ count ih =>
    rw [List.replicate_succ, List.cons_append, standing, ih, Nat.add_right_comm, Nat.add_assoc]

theorem standing_pushed (xs : List DirectiveSet) (h : List Change) :
    standing 0 (xs.map .pushed ++ h) = xs ++ standing 0 h := by
  induction xs with
  | nil => rfl
  | cons x xs ih => rw [List.map_cons, List.cons_append, standing, ih, List.cons_append]

/-! ### One order -/

/-- Sets are pushed together if there is room for all of them. -/
theorem pushAll_eq_ok_iff {xs : List DirectiveSet} : s.pushAll xs = .ok s' ↔
    s.depth + xs.length ≤ s.limit ∧ s' = { s with pushed := xs ++ s.pushed } := by
  unfold pushAll
  by_cases hroom : s.depth + xs.length ≤ s.limit
  · simp [hroom, eq_comm]
  · simp [hroom]

theorem pushText_eq_ok_iff : s.pushText read text = .ok (n, s') ↔
    ∃ xs, DirectiveSet.ofText read text = .ok xs ∧ n = xs.length ∧ s.pushAll xs = .ok s' := by
  unfold pushText
  cases DirectiveSet.ofText read text with
  | error e => simp [bind, Except.bind]
  | ok xs =>
    cases hpush : s.pushAll xs <;>
      simp [hpush, bind, Except.bind, pure, Except.pure, eq_comm]

/-- The sets of a file are pushed if it is of the right kind, all its entries are readable, and
there is room for all of them. -/
theorem exists_pushText_iff : (∃ n s', s.pushText read text = .ok (n, s')) ↔
    ∃ es, DirectiveSet.entriesOfText? read text = some es ∧ (∀ e ∈ es, e.Readable) ∧
      s.depth + es.length ≤ s.limit := by
  constructor
  · rintro ⟨n, s', hpush⟩
    obtain ⟨xs, htext, -, hpush⟩ := pushText_eq_ok_iff.1 hpush
    obtain ⟨es, hes, hxs⟩ := DirectiveSet.ofText_eq_ok_iff.1 htext
    refine ⟨es, hes, fun e he => ?_, hxs.length_eq ▸ (pushAll_eq_ok_iff.1 hpush).1⟩
    exact DirectiveEntry.exists_resolve_iff.1 (exists_mapM_iff.1 ⟨xs, mapM_eq_ok_iff.2 hxs⟩ e he)
  · rintro ⟨es, hes, hread, hroom⟩
    obtain ⟨xs, htext⟩ := DirectiveSet.exists_ofText_iff.2 ⟨es, hes, hread⟩
    obtain ⟨es', hes', hxs⟩ := DirectiveSet.ofText_eq_ok_iff.1 htext
    obtain rfl := Option.some.inj (hes.symm.trans hes')
    exact ⟨_, _, pushText_eq_ok_iff.2
      ⟨xs, htext, rfl, pushAll_eq_ok_iff.2 ⟨hxs.length_eq ▸ hroom, rfl⟩⟩⟩

/-- Why a file is refused. -/
theorem pushText_eq_error_iff : (∃ e, s.pushText read text = .error e) ↔
    DirectiveSet.entriesOfText? read text = none ∨
      ∃ es, DirectiveSet.entriesOfText? read text = some es ∧
        ((∃ e ∈ es, e.patterns = [] ∨ ∃ t ∈ e.patterns, MethodPattern.parse? t.toList = none) ∨
          s.limit < s.depth + es.length) := by
  have hok : (∃ e, s.pushText read text = .error e) ↔
      ¬ ∃ n s', s.pushText read text = .ok (n, s') := by
    rcases s.pushText read text with e | ⟨n, s'⟩ <;> simp
  rw [hok, exists_pushText_iff]
  cases DirectiveSet.entriesOfText? read text with
  | none => simp
  | some es =>
    simp only [Option.some.injEq, exists_eq_left', reduceCtorEq, false_or, not_and_or, Nat.not_le,
      not_forall, DirectiveEntry.Readable, not_not, exists_prop]

/-- The sets of a file are on top, the first one topmost; popping as many takes them off again. -/
theorem pop_pushText (hpush : s.pushText read text = .ok (n, s')) : s'.pop n = (n, s) := by
  obtain ⟨xs, -, rfl, hall⟩ := pushText_eq_ok_iff.1 hpush
  obtain ⟨-, rfl⟩ := pushAll_eq_ok_iff.1 hall
  simp [pop]

/-- No more sets are popped than were pushed. -/
theorem drop_pushed (s : DirectiveStack) (count : Nat) :
    s.pushed.drop count = s.pushed.drop (min s.pushed.length count) := by
  rcases Nat.le_total s.pushed.length count with hle | hle
  · rw [Nat.min_eq_left hle, List.drop_length, List.drop_eq_nil_of_le hle]
  · rw [Nat.min_eq_right hle]

/-- Popping takes the topmost sets off, but never the default one. -/
theorem sets_pop (s : DirectiveStack) (count : Nat) :
    (s.pop count).2.sets = s.sets.drop (min (s.depth - 1) count) := by
  rw [sets, sets, pop, depth, Nat.add_sub_cancel,
    List.drop_append_of_le_length (Nat.min_le_left _ _), ← drop_pushed]

/-- The directive for a method is that of the topmost set that accepts it. -/
theorem exists_lookup (s : DirectiveStack) (className method : String) (kind : CompilerKind) :
    ∃ (above : List DirectiveSet) (x : DirectiveSet) (below : List DirectiveSet),
      s.sets = above ++ x :: below ∧ x.accepts className method = true ∧
      (∀ y ∈ above, y.accepts className method = false) ∧
      s.lookup className method kind = x.forKind kind := by
  unfold lookup
  cases hfind : s.pushed.find? (·.accepts className method) with
  | none =>
    refine ⟨s.pushed, .default, [], rfl, rfl, fun y hy => ?_, rfl⟩
    exact Bool.eq_false_iff.2 (List.find?_eq_none.1 hfind y hy)
  | some x =>
    obtain ⟨hx, above, below, heq, habove⟩ := List.find?_eq_some_iff_append.1 hfind
    refine ⟨above, x, below ++ [.default], ?_, hx, fun y hy => ?_, rfl⟩
    · rw [sets, heq, List.append_assoc, List.cons_append]
    · simpa using habove y hy

/-- Where no set that was pushed accepts a method, its directive is the default one. -/
theorem lookup_eq_default {className method : String} {kind : CompilerKind}
    (hnone : ∀ x ∈ s.pushed, x.accepts className method = false) :
    s.lookup className method kind = {} := by
  have hfind : s.pushed.find? (·.accepts className method) = none :=
    List.find?_eq_none.2 fun x hx => Bool.eq_false_iff.1 (hnone x hx)
  rw [lookup, hfind]
  cases kind <;> rfl

/-! ### Agreement with the history -/

/-- A stack with this limit is as its history says. -/
structure Tells (limit : Nat) (s : DirectiveStack) (h : List Change) : Prop where
  /-- The limit stays. -/
  limit_eq : s.limit = max limit 1
  /-- The sets over the default one are those that are still there. -/
  pushed : s.pushed = standing 0 h
  /-- There is room for them. -/
  depth_le : s.depth ≤ max limit 1

theorem tells_withLimit (limit : Nat) : (withLimit limit).Tells limit [] where
  limit_eq := rfl
  pushed := rfl
  depth_le := Nat.le_max_right _ _

/-- Sets that are pushed together. -/
theorem Tells.pushAll (ht : s.Tells limit h) (xs : List DirectiveSet)
    (hpush : s.pushAll xs = .ok s') : s'.Tells limit (xs.map .pushed ++ h) := by
  obtain ⟨hroom, rfl⟩ := pushAll_eq_ok_iff.1 hpush
  refine ⟨ht.limit_eq, ?_, ?_⟩
  · rw [standing_pushed, ← ht.pushed]
  · rw [ht.limit_eq, depth] at hroom
    rw [depth, List.length_append]
    omega

/-- Sets that are popped. -/
theorem Tells.drop (ht : s.Tells limit h) (count : Nat) :
    Tells limit { s with pushed := s.pushed.drop count } (.replicate count .popped ++ h) where
  limit_eq := ht.limit_eq
  pushed := by rw [standing_popped, Nat.zero_add, standing_eq_drop, ← ht.pushed]
  depth_le := by
    refine Nat.le_trans ?_ ht.depth_le
    rw [depth, depth, List.length_drop]
    omega

/-- An order keeps stack and history in agreement. -/
theorem Tells.obey (ht : s.Tells limit h) (o : Order) :
    (s.obey read o).2.Tells limit (changes read o (s.obey read o).1 ++ h) := by
  cases o with
  | push x =>
    rw [DirectiveStack.obey]
    split
    · exact ht.pushAll [x] ‹_›
    · exact ht
  | pushText text =>
    rw [DirectiveStack.obey]
    split
    · rename_i n s' hpush
      obtain ⟨xs, htext, -, hall⟩ := pushText_eq_ok_iff.1 hpush
      rw [changes, htext]
      exact ht.pushAll xs hall
    · exact ht
  | pop count =>
    have hpop : (s.pop count).2 =
        { s with pushed := s.pushed.drop (min s.pushed.length count) } := by
      rw [pop, drop_pushed]
    rw [DirectiveStack.obey, hpop]
    exact ht.drop _
  | clear =>
    have hclear : s.clear = { s with pushed := s.pushed.drop s.pushed.length } := by
      rw [clear, List.drop_length]
    rw [DirectiveStack.obey, hclear]
    exact ht.drop _

/-- What holds of a stack with this limit after a history. -/
structure Layered (read : String → Option Json) (limit : Nat) (s : DirectiveStack)
    (h : List Change) : Prop where
  /-- It has the sets that were pushed and not popped since, and the default set at the bottom. -/
  sets_eq : s.sets = standing 0 h ++ [.default]
  /-- The depth counts all of them. -/
  depth_eq : s.depth = s.sets.length
  /-- There is always one. -/
  depth_pos : 1 ≤ s.depth
  /-- There are never more than the limit allows. -/
  depth_le : s.depth ≤ max limit 1
  /-- A set is pushed on top if there is room for it. -/
  push : ∀ x, s.push x = if s.depth < max limit 1 then .ok { s with pushed := x :: s.pushed }
    else .error (.stackFull (max limit 1))
  /-- The sets of a file are pushed on top, the first one topmost; popping as many takes them off
  again. -/
  pushText : ∀ text n s', s.pushText read text = .ok (n, s') →
    ∃ es xs, DirectiveSet.entriesOfText? read text = some es ∧
      List.Forall₂ (fun e x => DirectiveEntry.resolve e = .ok x) es xs ∧ n = xs.length ∧
      s'.sets = xs ++ s.sets ∧ s'.pop n = (n, s)
  /-- A file is refused for one of these reasons. -/
  pushText_error : ∀ text, (∃ e, s.pushText read text = .error e) ↔
    DirectiveSet.entriesOfText? read text = none ∨
      ∃ es, DirectiveSet.entriesOfText? read text = some es ∧
        ((∃ e ∈ es, e.patterns = [] ∨ ∃ t ∈ e.patterns, MethodPattern.parse? t.toList = none) ∨
          max limit 1 < s.depth + es.length)
  /-- What is refused changes nothing. -/
  refused : ∀ o e, (s.obey read o).1 = .error e → (s.obey read o).2 = s
  /-- Popping takes as many sets off the top as were asked for, but not the default one. -/
  pop : ∀ count, (s.pop count).1 = min (s.depth - 1) count ∧
    (s.pop count).2.sets = s.sets.drop (min (s.depth - 1) count)
  /-- Clearing pops everything and leaves the default set. -/
  clear : s.clear = (s.pop s.depth).2 ∧ s.clear.sets = [.default]
  /-- The directive for a method is that of the topmost set that accepts it. -/
  lookup : ∀ className method kind, ∃ above x below, s.sets = above ++ x :: below ∧
    x.accepts className method = true ∧ (∀ y ∈ above, y.accepts className method = false) ∧
    s.lookup className method kind = x.forKind kind
  /-- It is the default one where no other set accepts the method. -/
  lookup_default : ∀ className method kind,
    (∀ x ∈ standing 0 h, x.accepts className method = false) → s.lookup className method kind = {}

theorem Tells.layered (ht : s.Tells limit h) : s.Layered read limit h where
  sets_eq := by rw [sets, ht.pushed]
  depth_eq := by rw [depth, sets, List.length_append, List.length_singleton]
  depth_pos := Nat.le_add_left _ _
  depth_le := ht.depth_le
  push x := by
    rw [DirectiveStack.push, DirectiveStack.pushAll, ht.limit_eq]
    rfl
  pushText text n s' hpush := by
    obtain ⟨xs, htext, hn, hall⟩ := pushText_eq_ok_iff.1 hpush
    obtain ⟨es, hes, hxs⟩ := DirectiveSet.ofText_eq_ok_iff.1 htext
    refine ⟨es, xs, hes, hxs, hn, ?_, pop_pushText hpush⟩
    obtain ⟨-, rfl⟩ := pushAll_eq_ok_iff.1 hall
    exact List.append_assoc _ _ _
  pushText_error text := ht.limit_eq ▸ pushText_eq_error_iff
  refused o e he := by
    cases o with
    | push x | pushText text =>
      rw [DirectiveStack.obey] at he ⊢
      split at he
      · cases he
      · rfl
    | pop count | clear => cases he
  pop count := ⟨rfl, s.sets_pop count⟩
  clear := by
    refine ⟨?_, rfl⟩
    rw [DirectiveStack.clear, DirectiveStack.pop, depth, List.drop_eq_nil_of_le (Nat.le_succ _)]
  lookup := s.exists_lookup
  lookup_default className method kind hnone := lookup_eq_default (ht.pushed ▸ hnone)

/-! ### Rows of orders -/

/-- A stack and its history. -/
structure Used where
  /-- The stack. -/
  stack : DirectiveStack
  /-- What was changed, latest first. -/
  history : List Change

/-- The stack and its history after an order. -/
def Used.obey (read : String → Option Json) (u : Used) (o : Order) : Used where
  stack := (u.stack.obey read o).2
  history := changes read o (u.stack.obey read o).1 ++ u.history

/-- Orders keep stack and history in agreement. -/
theorem Used.tells_foldl {u : Used} (ht : u.stack.Tells limit u.history) (os : List Order) :
    (os.foldl (obey read) u).stack.Tells limit (os.foldl (obey read) u).history := by
  induction os generalizing u with
  | nil => exact ht
  | cons o os ih => exact ih (ht.obey o)

/-- Whatever a stack was asked to do, and whatever reads its files, it is layered as its history
says. -/
theorem layered_of_run (read : String → Option Json) (limit : Nat) (os : List Order) :
    (os.foldl (Used.obey read) ⟨withLimit limit, []⟩).stack.Layered read limit
      (os.foldl (Used.obey read) ⟨withLimit limit, []⟩).history :=
  (Used.tells_foldl (tells_withLimit limit) os).layered

end DirectiveStack

end JitBroker
