import Mathlib.Data.String.Basic
import JitBroker.Proofs.Directive.Layers

/-!
# What a directive file means

The rules for a directive file are stated on the JSON value alone, field by field. A field that sets
the policy is absent, null or of its type (`IsFlag`, `IsCount`); an object that keeps to this obeys
the rules for options (`ObeysOptions`), and a file is one entry or a list of entries that do so
themselves and in their sections (`Json.entries`, `IsEntry`).

The directive for a family takes each option from the section of the family, else from the object,
else from the default (`Directive.Resolves`). Fields that are no options by name are passed on,
those of the section before those of the object.

* `OptionOverrides.ofFields?_eq_some_iff`: what is read from the fields of an object;
* `DirectiveEntry.ofJson?_eq_some_iff`: what is read from an entry;
* `DirectiveSet.meaning_of_ofText`: which files are taken, and what their sets are.

All of this is about values whose objects have no two fields of one name.
-/

namespace JitBroker

/-- No object in the value has two fields of one name. -/
inductive Json.Distinct : Json → Prop where
  /-- There is no object in it. -/
  | null : Distinct .null
  /-- There is no object in it. -/
  | bool (b : Bool) : Distinct (.bool b)
  /-- There is no object in it. -/
  | int (n : Int) : Distinct (.int n)
  /-- There is no object in it. -/
  | float (bits : UInt64) : Distinct (.float bits)
  /-- There is no object in it. -/
  | str (s : String) : Distinct (.str s)
  /-- It is so in each item. -/
  | arr {items : List Json} (h : ∀ v ∈ items, Distinct v) : Distinct (.arr items)
  /-- Its own fields have different names, and it is so in each of them. -/
  | obj {fields : List (String × Json)} (hnames : (fields.map (·.1)).Nodup)
    (h : ∀ f ∈ fields, Distinct f.2) : Distinct (.obj fields)

/-! ### Fields by name -/

section Lookup

variable {α : Type} {name : String}

theorem lookup_field (k : String) (v : α) (fields : List (String × α)) (name : String) :
    ((k, v) :: fields).lookup name = if name = k then some v else fields.lookup name := by
  rw [List.lookup_cons]
  by_cases h : name = k
  · simp [h]
  · rw [beq_eq_false_iff_ne.2 h, if_neg h]

theorem mem_of_lookup {x : α} {fields : List (String × α)} (h : fields.lookup name = some x) :
    (name, x) ∈ fields := by
  obtain ⟨before, after, rfl, -⟩ := List.lookup_eq_some_iff.1 h
  exact List.mem_append_right _ List.mem_cons_self

theorem lookup_eq_none_of_notMem {fields : List (String × α)} (h : name ∉ fields.map (·.1)) :
    fields.lookup name = none :=
  List.lookup_eq_none_iff.2 fun _ hf => bne_iff_ne.2 fun heq => h (heq ▸ List.mem_map_of_mem hf)

/-- Leaving out fields by their names does not change the others. -/
theorem lookup_filter (p : String → Bool) (fields : List (String × α)) (name : String) :
    (fields.filter fun f => p f.1).lookup name = if p name then fields.lookup name else none := by
  induction fields with
  | nil => simp
  | cons f fields ih =>
    obtain ⟨k, v⟩ := f
    rw [List.filter_cons, lookup_field]
    by_cases hname : name = k
    · subst hname
      by_cases hp : p name <;> simp [hp, ih]
    · by_cases hp : p k <;> simp [hp, lookup_field, hname, ih]

/-- The field that is added is found, and the others are found as before. -/
theorem Json.lookup_insertField (key : String) (value : α) (fields : List (String × α))
    (name : String) :
    (insertField key value fields).lookup name =
      if name = key then some value else fields.lookup name := by
  induction fields with
  | nil => rw [insertField, lookup_field]
  | cons f fields ih =>
    obtain ⟨k, v⟩ := f
    rw [insertField]
    split
    · rw [lookup_field]
    · split
      · rename_i hkey
        rw [lookup_field, lookup_field, ← hkey]
        split <;> rfl
      · rename_i hkey
        rw [lookup_field, lookup_field, ih]
        by_cases h : name = key
        · rw [if_neg (h ▸ hkey), if_pos h]
          exact (if_pos h).symm
        · rw [if_neg h, if_neg h]

theorem Json.mem_insertField {key k : String} {value : α} {fields : List (String × α)}
    (h : k ∈ (insertField key value fields).map (·.1)) : k = key ∨ k ∈ fields.map (·.1) := by
  fun_induction insertField key value fields with
  | case1 => exact .inl (List.mem_singleton.1 h)
  | case2 => exact List.mem_cons.1 h
  | case3 => exact (List.mem_cons.1 h).imp_right (List.mem_cons_of_mem _)
  | case4 k' v rest _ _ ih =>
    rcases List.mem_cons.1 h with rfl | h
    · exact .inr List.mem_cons_self
    · exact (ih h).imp_right (List.mem_cons_of_mem _)

/-- Adding a field keeps the fields in ascending order of names. -/
theorem Json.sorted_insertField (key : String) (value : α) {fields : List (String × α)}
    (h : (fields.map (·.1)).Pairwise (· < ·)) :
    ((insertField key value fields).map (·.1)).Pairwise (· < ·) := by
  induction fields with
  | nil => exact List.pairwise_singleton _ _
  | cons f fields ih =>
    obtain ⟨k, v⟩ := f
    rw [List.map_cons, List.pairwise_cons] at h
    obtain ⟨hfirst, hrest⟩ := h
    rw [insertField]
    split
    · rename_i hlt
      rw [List.map_cons, List.map_cons, List.pairwise_cons, List.pairwise_cons]
      refine ⟨fun k' hk' => ?_, hfirst, hrest⟩
      rcases List.mem_cons.1 hk' with rfl | hk'
      · exact hlt
      · exact String.lt_trans hlt (hfirst k' hk')
    · split
      · rename_i hkey
        rw [List.map_cons, List.pairwise_cons]
        exact ⟨fun k' hk' => hkey ▸ hfirst k' hk', hrest⟩
      · rename_i hlt hne
        rw [List.map_cons, List.pairwise_cons]
        refine ⟨fun k' hk' => ?_, ih hrest⟩
        rcases mem_insertField hk' with rfl | hk'
        · exact lt_of_le_of_ne (String.not_lt.1 hlt) (Ne.symm hne)
        · exact hfirst k' hk'

end Lookup

/-! ### Rules -/

/-- A truth value may stand here: there is none, or null, or one. -/
def IsFlag (v? : Option Json) : Prop := v? = none ∨ v? = some .null ∨ ∃ b, v? = some (.bool b)

/-- A number of 32 bits may stand here: there is none, or null, or one. -/
def IsCount (v? : Option Json) : Prop :=
  v? = none ∨ v? = some .null ∨ ∃ n : Nat, n < 2 ^ 32 ∧ v? = some (.int n)

/-- The fields obey the rules for options. -/
structure ObeysOptions (fields : List (String × Json)) : Prop where
  /-- Whether to compile is a truth value. -/
  enable : IsFlag (fields.lookup "Enable")
  /-- So is whether never to compile. -/
  exclude : IsFlag (fields.lookup "Exclude")
  /-- So is whether to stop in the debugger. -/
  breakAtCompile : IsFlag (fields.lookup "BreakAtCompile")
  /-- So is whether to log. -/
  log : IsFlag (fields.lookup "Log")
  /-- So is whether requests go on without waiting. -/
  backgroundCompilation : IsFlag (fields.lookup "BackgroundCompilation")
  /-- How often to repeat is a number of 32 bits. -/
  repeatCompilation : IsCount (fields.lookup "RepeatCompilation")

/-- A section may stand here: there is none, or null, or an object that obeys the rules. -/
def IsSection (v? : Option Json) : Prop :=
  v? = none ∨ v? = some .null ∨ ∃ inner, v? = some (.obj inner) ∧ ObeysOptions inner

/-- Patterns may stand here, with these texts: one, or some in a list. -/
def HasPatterns (v? : Option Json) (texts : List String) : Prop :=
  (∃ t, v? = some (.str t) ∧ texts = [t]) ∨
    v? = some (.arr (texts.map .str)) ∧ texts ≠ []

/-- A value is an entry of a directive file. -/
def IsEntry (v : Json) : Prop :=
  ∃ own, v = .obj own ∧
    (∃ texts, HasPatterns (own.lookup "match") texts ∧
      ∀ t ∈ texts, ∃ p, MethodPattern.read t = .ok p) ∧
    ObeysOptions own ∧ IsSection (own.lookup "c1") ∧ IsSection (own.lookup "c2")

/-- The entries of a value: its items, or the value itself. -/
def Json.entries : Json → List Json
  | .arr items => items
  | v => [v]

/-! ### Meaning -/

/-- The truth value that a field sets. -/
def flagOf (name : String) (fields : List (String × Json)) : Option Bool :=
  match fields.lookup name with
  | some (.bool b) => some b
  | _ => none

/-- The number that a field sets. -/
def countOf (name : String) (fields : List (String × Json)) : Option UInt32 :=
  match fields.lookup name with
  | some (.int n) => some (UInt32.ofNat n.toNat)
  | _ => none

/-- The fields of a section; there are none if it is left out. -/
def sectionOf (name : String) (fields : List (String × Json)) : List (String × Json) :=
  match fields.lookup name with
  | some (.obj inner) => inner
  | _ => []

/-- The section of a family. -/
def CompilerKind.sectionName : CompilerKind → String
  | .c1 => "c1"
  | .c2 | .external => "c2"

/-- A directive takes each option from its section, else from the object, else from the default, and
has the other fields of both for its back-end. -/
structure Directive.Resolves (inner own : List (String × Json)) (d : Directive) : Prop where
  /-- By default it compiles. -/
  enable : d.enable = ((flagOf "Enable" inner).or (flagOf "Enable" own)).getD true
  /-- By default nothing is excluded. -/
  exclude : d.exclude = ((flagOf "Exclude" inner).or (flagOf "Exclude" own)).getD false
  /-- By default it does not stop. -/
  breakAtCompile : d.breakAtCompile =
    ((flagOf "BreakAtCompile" inner).or (flagOf "BreakAtCompile" own)).getD false
  /-- By default it does not log. -/
  log : d.log = ((flagOf "Log" inner).or (flagOf "Log" own)).getD false
  /-- By default it leaves open whether requests wait. -/
  backgroundCompilation : d.backgroundCompilation =
    (flagOf "BackgroundCompilation" inner).or (flagOf "BackgroundCompilation" own)
  /-- By default it repeats nothing. -/
  repeatCompilation : d.repeatCompilation =
    ((countOf "RepeatCompilation" inner).or (countOf "RepeatCompilation" own)).getD 0
  /-- The fields of the section that are no options by name are found first, then those of the
  object that neither are nor belong to the format of an entry. -/
  options : ∀ key, d.options.lookup key =
    ((if key ∈ OptionOverrides.names then none else inner.lookup key).or
      (if key ∈ OptionOverrides.names ∨ key ∈ ["match", "c1", "c2"] then none
        else own.lookup key)).map Json.normalize
  /-- They have different names, in ascending order. -/
  sorted : (d.options.map (·.1)).Pairwise (· < ·)

/-- A set is what an entry means. -/
structure DirectiveSet.Means (v : Json) (set : DirectiveSet) : Prop where
  /-- Its patterns are those of the texts. -/
  patterns : ∃ own texts, v = .obj own ∧ HasPatterns (own.lookup "match") texts ∧
    List.Forall₂ (fun t p => MethodPattern.read t = .ok p) texts set.patterns
  /-- It has a directive for each family. -/
  directive : ∃ own, v = .obj own ∧ ∀ kind : CompilerKind,
    (set.forKind kind).Resolves (sectionOf kind.sectionName own) own

/-! ### Reading options -/

namespace OptionOverrides

variable {fields : List (String × Json)} {name : String}

/-- Among fields with different names there is at most one of a name. -/
theorem valuesOf_eq (h : (fields.map (·.1)).Nodup) (name : String) :
    valuesOf name fields = (fields.lookup name).toList := by
  induction fields with
  | nil => rfl
  | cons f fields ih =>
    obtain ⟨k, v⟩ := f
    rw [List.map_cons, List.nodup_cons] at h
    obtain ⟨hk, hrest⟩ := h
    have ih := ih hrest
    rw [valuesOf] at ih ⊢
    rw [lookup_field, List.filter_cons]
    by_cases hname : name = k
    · subst hname
      rw [lookup_eq_none_of_notMem hk] at ih
      simp [ih]
    · simp [Ne.symm hname, hname, ih]

theorem single?_eq (h : (fields.map (·.1)).Nodup) (name : String) :
    single? name fields = some (match fields.lookup name with
      | some .null => none
      | v? => v?) := by
  rw [single?, valuesOf_eq h]
  cases fields.lookup name with
  | none => rfl
  | some v => cases v <;> rfl

theorem flag?_eq_some_iff (h : (fields.map (·.1)).Nodup) {b? : Option Bool} :
    flag? name fields = some b? ↔ IsFlag (fields.lookup name) ∧ b? = flagOf name fields := by
  rw [flag?, single?_eq h, flagOf, IsFlag]
  cases fields.lookup name with
  | none => simp [eq_comm]
  | some v => cases v <;> simp [eq_comm]

theorem count?_eq_some_iff (h : (fields.map (·.1)).Nodup) {n? : Option UInt32} :
    count? name fields = some n? ↔ IsCount (fields.lookup name) ∧ n? = countOf name fields := by
  rw [count?, single?_eq h, countOf, IsCount]
  cases fields.lookup name with
  | none => simp [eq_comm]
  | some v =>
    cases v with
    | int n =>
      -- The reader asks for a range of integers, the rule for a natural number.
      have hrange : (0 ≤ n ∧ n < UInt32.size) ↔ ∃ k : Nat, k < 2 ^ 32 ∧ n = k := by
        rw [show UInt32.size = 2 ^ 32 from rfl]
        constructor
        · exact fun h => ⟨n.toNat, by omega, by omega⟩
        · rintro ⟨k, hk, rfl⟩
          omega
      simp only [hrange]
      split <;> simp_all [eq_comm]
    | _ => simp [eq_comm]

/-- What the fields set. -/
def ofFields (fields : List (String × Json)) : OptionOverrides where
  enable := flagOf "Enable" fields
  exclude := flagOf "Exclude" fields
  breakAtCompile := flagOf "BreakAtCompile" fields
  log := flagOf "Log" fields
  backgroundCompilation := flagOf "BackgroundCompilation" fields
  repeatCompilation := countOf "RepeatCompilation" fields
  other := fields.filter fun f => !names.contains f.1

/-- Fields with different names are read if they obey the rules. -/
theorem ofFields?_eq_some_iff (h : (fields.map (·.1)).Nodup) {o : OptionOverrides} :
    ofFields? fields = some o ↔ ObeysOptions fields ∧ o = ofFields fields := by
  simp only [ofFields?, Option.bind_eq_bind, Option.bind_eq_some_iff, Option.pure_def,
    Option.some.injEq, flag?_eq_some_iff h, count?_eq_some_iff h]
  constructor
  · rintro ⟨_, ⟨h₁, rfl⟩, _, ⟨h₂, rfl⟩, _, ⟨h₃, rfl⟩, _, ⟨h₄, rfl⟩, _, ⟨h₅, rfl⟩, _, ⟨h₆, rfl⟩, rfl⟩
    exact ⟨⟨h₁, h₂, h₃, h₄, h₅, h₆⟩, rfl⟩
  · rintro ⟨⟨h₁, h₂, h₃, h₄, h₅, h₆⟩, rfl⟩
    exact ⟨_, ⟨h₁, rfl⟩, _, ⟨h₂, rfl⟩, _, ⟨h₃, rfl⟩, _, ⟨h₄, rfl⟩, _, ⟨h₅, rfl⟩, _, ⟨h₆, rfl⟩, rfl⟩

/-- The options that are added are found first. -/
theorem lookup_foldl_insertField {other : List (String × Json)} (h : (other.map (·.1)).Nodup)
    (options : List (String × Json)) (key : String) :
    (other.foldl (fun options (k, v) => Json.insertField k v.normalize options) options).lookup key =
      ((other.lookup key).map Json.normalize).or (options.lookup key) := by
  induction other generalizing options with
  | nil => rfl
  | cons f other ih =>
    obtain ⟨k, v⟩ := f
    rw [List.map_cons, List.nodup_cons] at h
    rw [List.foldl_cons, ih h.2, Json.lookup_insertField, lookup_field]
    by_cases hkey : key = k
    · subst hkey
      simp [lookup_eq_none_of_notMem h.1]
    · simp [hkey]

theorem sorted_foldl_insertField (other : List (String × Json)) {options : List (String × Json)}
    (h : (options.map (·.1)).Pairwise (· < ·)) :
    ((other.foldl (fun options (k, v) => Json.insertField k v.normalize options) options).map
      (·.1)).Pairwise (· < ·) := by
  induction other generalizing options with
  | nil => exact h
  | cons f other ih => exact ih (Json.sorted_insertField _ _ h)

end OptionOverrides

/-! ### Reading entries -/

/-- The fields of an entry that do not belong to its format. -/
def commonFields (own : List (String × Json)) : List (String × Json) :=
  own.filter fun f => !(["match", "c1", "c2"].contains f.1)

section Fields

variable {own inner : List (String × Json)} {name : String}

theorem nodup_filter {p : String × Json → Bool} (h : (own.map (·.1)).Nodup) :
    ((own.filter p).map (·.1)).Nodup :=
  h.sublist (List.filter_sublist.map _)

theorem lookup_commonFields (own : List (String × Json)) (name : String) :
    (commonFields own).lookup name =
      if name ∈ ["match", "c1", "c2"] then none else own.lookup name := by
  rw [commonFields, lookup_filter fun k => !(["match", "c1", "c2"].contains k)]
  simp only [Bool.not_eq_true', List.contains_eq_mem, decide_eq_false_iff_not, ite_not]

/-- The rules for options are about their fields only. -/
theorem ObeysOptions.congr (ho : ObeysOptions own)
    (h : ∀ name ∈ OptionOverrides.names, inner.lookup name = own.lookup name) :
    ObeysOptions inner where
  enable := h "Enable" (by decide) ▸ ho.enable
  exclude := h "Exclude" (by decide) ▸ ho.exclude
  breakAtCompile := h "BreakAtCompile" (by decide) ▸ ho.breakAtCompile
  log := h "Log" (by decide) ▸ ho.log
  backgroundCompilation := h "BackgroundCompilation" (by decide) ▸ ho.backgroundCompilation
  repeatCompilation := h "RepeatCompilation" (by decide) ▸ ho.repeatCompilation

theorem lookup_commonFields_of_mem (own : List (String × Json)) (h : name ∈ OptionOverrides.names) :
    (commonFields own).lookup name = own.lookup name := by
  rw [lookup_commonFields, if_neg]
  revert h
  simp only [OptionOverrides.names, List.mem_cons, List.not_mem_nil, or_false]
  rintro (rfl | rfl | rfl | rfl | rfl | rfl) <;> decide

theorem obeysOptions_commonFields : ObeysOptions (commonFields own) ↔ ObeysOptions own :=
  ⟨fun ho => ho.congr fun _ h => (lookup_commonFields_of_mem own h).symm,
    fun ho => ho.congr fun _ h => lookup_commonFields_of_mem own h⟩

end Fields

namespace OptionOverrides

variable {own inner : List (String × Json)} {name : String}

/-- What the section sets goes before what the object sets, and both before the default. -/
theorem resolves_apply (hinner : (inner.map (·.1)).Nodup) (hown : (own.map (·.1)).Nodup) :
    ((ofFields inner).apply ((ofFields (commonFields own)).apply {})).Resolves inner own := by
  have hflag (name : String) (hname : name ∈ names) :
      flagOf name (commonFields own) = flagOf name own := by
    rw [flagOf, lookup_commonFields_of_mem own hname, flagOf]
  have hcount : countOf "RepeatCompilation" (commonFields own) =
      countOf "RepeatCompilation" own := by
    rw [countOf, lookup_commonFields_of_mem own (by decide), countOf]
  constructor
  case options =>
    intro key
    simp only [apply, ofFields]
    have hcommon : ((commonFields own).map (·.1)).Nodup := nodup_filter hown
    rw [lookup_foldl_insertField (nodup_filter hinner),
      lookup_foldl_insertField (nodup_filter hcommon),
      lookup_filter (fun k => !names.contains k), lookup_filter (fun k => !names.contains k),
      lookup_commonFields]
    -- A key is an option by name, or belongs to the format of an entry, or is neither.
    by_cases hname : key ∈ names
    · simp [hname]
    · by_cases hentry : key ∈ ["match", "c1", "c2"]
      · simp only [hname, hentry, or_true, if_true]
        cases inner.lookup key <;> simp [hname]
      · simp only [hname, hentry, or_self, if_false]
        cases inner.lookup key <;> simp [hname]
  case sorted => exact sorted_foldl_insertField _ (sorted_foldl_insertField _ .nil)
  all_goals
    simp [apply, ofFields, hflag "Enable" (by decide), hflag "Exclude" (by decide),
      hflag "BreakAtCompile" (by decide), hflag "Log" (by decide),
      hflag "BackgroundCompilation" (by decide), hcount, Option.getD_or]

/-- A section is read if there is none or it obeys the rules. -/
theorem section?_eq_some_iff (hown : (own.map (·.1)).Nodup) (h : ∀ f ∈ own, f.2.Distinct)
    {o : OptionOverrides} : section? name own = some o ↔
      IsSection (own.lookup name) ∧ o = ofFields (sectionOf name own) := by
  rw [section?, single?_eq hown, sectionOf, IsSection]
  cases hv : own.lookup name with
  | none => simp [eq_comm, ofFields, flagOf, countOf]
  | some v =>
    cases v with
    | obj inner =>
      cases h _ (mem_of_lookup hv) with
      | obj hnames _ => simp [ofFields?_eq_some_iff hnames]
    | null => simp [eq_comm, ofFields, flagOf, countOf]
    | _ => simp

/-- The fields of a section have different names. -/
theorem nodup_sectionOf (h : ∀ f ∈ own, f.2.Distinct) (name : String) :
    ((sectionOf name own).map (·.1)).Nodup := by
  unfold sectionOf
  split
  · rename_i inner hv
    cases h _ (mem_of_lookup hv) with
    | obj hnames _ => exact hnames
  · exact .nil

end OptionOverrides

namespace DirectiveEntry

theorem texts?_eq_some_iff {items : List Json} {texts : List String} :
    texts? items = some texts ↔ items = texts.map .str := by
  fun_induction texts? items generalizing texts with
  | case1 => cases texts <;> simp
  | case2 s rest ih =>
    rw [Option.map_eq_some_iff]
    constructor
    · rintro ⟨ts, hts, rfl⟩
      rw [ih.1 hts, List.map_cons]
    · intro h
      cases texts with
      | nil => cases h
      | cons t ts =>
        obtain ⟨hs, hrest⟩ := List.cons.inj h
        obtain rfl := Json.str.inj hs
        exact ⟨ts, ih.2 hrest, rfl⟩
  | case3 v rest hv =>
    refine ⟨nofun, fun h => ?_⟩
    cases texts with
    | nil => cases h
    | cons t ts => exact absurd (List.cons.inj h).1 (hv t)

/-- The texts of the patterns are read, unless the list of them is empty. -/
theorem patterns?_eq_some_iff {v : Json} {texts : List String} (hne : texts ≠ []) :
    patterns? v = some texts ↔ HasPatterns (some v) texts := by
  unfold HasPatterns
  cases v with
  | str t => simp [patterns?, eq_comm]
  | arr items => simp [patterns?, texts?_eq_some_iff, hne]
  | _ => simp [patterns?]

/-- What is read from the fields of an entry. -/
theorem ofJson?_eq_some_iff {own : List (String × Json)} (hown : (Json.obj own).Distinct)
    {e : DirectiveEntry} (hne : e.patterns ≠ []) : ofJson? (.obj own) = some e ↔
      (HasPatterns (own.lookup "match") e.patterns ∧ ObeysOptions own ∧
        IsSection (own.lookup "c1") ∧ IsSection (own.lookup "c2")) ∧
      e.common = .ofFields (commonFields own) ∧
        e.c1 = .ofFields (sectionOf "c1" own) ∧ e.c2 = .ofFields (sectionOf "c2" own) := by
  cases hown with
  | obj hnames h =>
    have hcommon := nodup_filter (p := fun f => !(["match", "c1", "c2"].contains f.1)) hnames
    obtain ⟨texts, _, _, _⟩ := e
    rw [ofJson?]
    simp only [Option.bind_eq_bind, Option.bind_eq_some_iff,
      OptionOverrides.ofFields?_eq_some_iff hcommon, OptionOverrides.section?_eq_some_iff hnames h,
      OptionOverrides.valuesOf_eq hnames]
    cases own.lookup "match" with
    | none => simp [HasPatterns]
    | some v =>
      rw [← patterns?_eq_some_iff hne]
      simp only [Option.toList_some, Option.bind_eq_some_iff, Option.pure_def, Option.some.injEq,
        DirectiveEntry.mk.injEq]
      constructor
      · rintro ⟨_, ⟨ho, rfl⟩, _, ⟨h₁, rfl⟩, _, ⟨h₂, rfl⟩, _, ht, rfl, rfl, rfl, rfl⟩
        exact ⟨⟨ht, obeysOptions_commonFields.1 ho, h₁, h₂⟩, rfl, rfl, rfl⟩
      · rintro ⟨⟨ht, ho, h₁, h₂⟩, rfl, rfl, rfl⟩
        exact ⟨_, ⟨obeysOptions_commonFields.2 ho, rfl⟩, _, ⟨h₁, rfl⟩, _, ⟨h₂, rfl⟩, _, ht, rfl, rfl,
          rfl, rfl⟩

/-- An entry with patterns stands for the set of these patterns, with a directive for each
family. -/
theorem resolve_eq_ok_iff {e : DirectiveEntry} {set : DirectiveSet} : e.resolve = .ok set ↔
    e.patterns ≠ [] ∧ List.Forall₂ (fun t p => MethodPattern.read t = .ok p) e.patterns set.patterns ∧
      set.c1 = e.c1.apply (e.common.apply {}) ∧ set.c2 = e.c2.apply (e.common.apply {}) := by
  obtain ⟨patterns, c1, c2⟩ := set
  unfold resolve
  rw [← mapM_eq_ok_iff]
  by_cases hp : e.patterns = []
  · simp [hp, throw, throwThe, MonadExceptOf.throw, bind, Except.bind]
  · have hne : e.patterns.isEmpty = false := by simpa using hp
    cases e.patterns.mapM MethodPattern.read with
    | error err => simp [hne, bind, Except.bind]
    | ok ps =>
      simp only [hne, bind, Except.bind, pure, Except.pure, Bool.false_eq_true, if_false,
        Except.ok.injEq, DirectiveSet.mk.injEq]
      rw [eq_comm (a := c1), eq_comm (a := c2)]
      exact (and_iff_right hp).symm

end DirectiveEntry

/-- Each item of a list gives a result if the results are there. -/
theorem mapM_eq_some_iff {α β : Type} {f : α → Option β} {as : List α} {bs : List β} :
    as.mapM f = some bs ↔ List.Forall₂ (fun a b => f a = some b) as bs := by
  induction as generalizing bs with
  | nil => simp [eq_comm]
  | cons a as ih =>
    rw [List.mapM_cons, List.forall₂_cons_left_iff]
    simp only [Option.bind_eq_bind, Option.bind_eq_some_iff, Option.pure_def, Option.some.injEq, ih]
    constructor
    · rintro ⟨b, hb, bs, hbs, rfl⟩
      exact ⟨b, bs, hb, hbs, rfl⟩
    · rintro ⟨b, bs, hb, hbs, rfl⟩
      exact ⟨b, hb, bs, hbs, rfl⟩

namespace DirectiveSet

variable {v : Json} {set : DirectiveSet} {sets : List DirectiveSet}

/-- The set of a value: of the entry that is read from it. -/
def IsOf (v : Json) (set : DirectiveSet) : Prop :=
  ∃ e, DirectiveEntry.ofJson? v = some e ∧ e.resolve = .ok set

theorem entries?_eq_some_iff {es : List DirectiveEntry} :
    entries? v = some es ↔ List.Forall₂ (fun v e => DirectiveEntry.ofJson? v = some e) v.entries es := by
  have hone (v : Json) : (DirectiveEntry.ofJson? v).map ([·]) = some es ↔
      List.Forall₂ (fun v e => DirectiveEntry.ofJson? v = some e) [v] es := by
    rw [Option.map_eq_some_iff, List.forall₂_cons_left_iff]
    constructor
    · rintro ⟨e, he, rfl⟩
      exact ⟨e, [], he, .nil, rfl⟩
    · rintro ⟨e, _, he, ⟨⟩, rfl⟩
      exact ⟨e, he, rfl⟩
  cases v with
  | arr items => exact mapM_eq_some_iff
  | null => exact hone .null
  | bool b => exact hone (.bool b)
  | int n => exact hone (.int n)
  | float bits => exact hone (.float bits)
  | str s => exact hone (.str s)
  | obj fields => exact hone (.obj fields)

/-- The sets of a file are those of its entries, in order. -/
theorem ofJson_eq_ok_iff : ofJson v = .ok sets ↔ List.Forall₂ IsOf v.entries sets := by
  have hcomp (vs : List Json) : List.Forall₂ IsOf vs sets ↔
      ∃ es, List.Forall₂ (fun v e => DirectiveEntry.ofJson? v = some e) vs es ∧
        List.Forall₂ (fun e set => e.resolve = .ok set) es sets := by
    induction vs generalizing sets with
    | nil =>
      constructor
      · rintro ⟨⟩
        exact ⟨[], .nil, .nil⟩
      · rintro ⟨_, ⟨⟩, ⟨⟩⟩
        exact .nil
    | cons v vs ih =>
      constructor
      · intro h
        obtain ⟨set, sets, ⟨e, he, hset⟩, hsets, rfl⟩ := List.forall₂_cons_left_iff.1 h
        obtain ⟨es, hes, hsets⟩ := ih.1 hsets
        exact ⟨e :: es, .cons he hes, .cons hset hsets⟩
      · rintro ⟨_, hall, hall'⟩
        obtain ⟨e, es, he, hes, rfl⟩ := List.forall₂_cons_left_iff.1 hall
        obtain ⟨set, sets, hset, hsets, rfl⟩ := List.forall₂_cons_left_iff.1 hall'
        exact .cons ⟨e, he, hset⟩ (ih.2 ⟨es, hes, hsets⟩)
  rw [hcomp, ofJson]
  simp only [← entries?_eq_some_iff, ← mapM_eq_ok_iff]
  cases entries? v <;> simp

/-- Where a set is read, the value keeps to the rules, and the set is what it means. -/
theorem IsOf.means (hv : v.Distinct) (hset : IsOf v set) : IsEntry v ∧ Means v set := by
  obtain ⟨e, he, hset⟩ := hset
  obtain ⟨hne, hpatterns, hc1, hc2⟩ := DirectiveEntry.resolve_eq_ok_iff.1 hset
  cases v with
  | obj own =>
    obtain ⟨⟨hp, ho, h₁, h₂⟩, hcommon, he1, he2⟩ :=
      (DirectiveEntry.ofJson?_eq_some_iff hv hne).1 he
    cases hv with
    | obj hnames h =>
      have hread : ∀ t ∈ e.patterns, ∃ p, MethodPattern.read t = .ok p :=
        exists_mapM_iff.1 ⟨_, mapM_eq_ok_iff.2 hpatterns⟩
      refine ⟨⟨own, rfl, ⟨_, hp, hread⟩, ho, h₁, h₂⟩, ⟨own, _, rfl, hp, hpatterns⟩, own, rfl, ?_⟩
      intro kind
      cases kind
      all_goals
        simp only [forKind, hc1, hc2, hcommon, he1, he2]
        exact OptionOverrides.resolves_apply (OptionOverrides.nodup_sectionOf h _) hnames
  | _ => cases he

/-- A set is read if and only if the value keeps to the rules. -/
theorem exists_isOf_iff (hv : v.Distinct) : (∃ set, IsOf v set) ↔ IsEntry v := by
  constructor
  · rintro ⟨set, hset⟩
    exact (hset.means hv).1
  · rintro ⟨own, rfl, ⟨texts, hp, hread⟩, ho, h₁, h₂⟩
    have hne : texts ≠ [] := by
      rcases hp with ⟨t, -, rfl⟩ | ⟨-, hne⟩
      · exact List.cons_ne_nil _ _
      · exact hne
    obtain ⟨ps, hps⟩ := exists_mapM_iff.2 hread
    let e : DirectiveEntry :=
      ⟨texts, .ofFields (commonFields own), .ofFields (sectionOf "c1" own),
        .ofFields (sectionOf "c2" own)⟩
    have he := (DirectiveEntry.ofJson?_eq_some_iff (e := e) hv hne).2
      ⟨⟨hp, ho, h₁, h₂⟩, rfl, rfl, rfl⟩
    exact ⟨⟨ps, e.c1.apply (e.common.apply {}), e.c2.apply (e.common.apply {})⟩, e, he,
      DirectiveEntry.resolve_eq_ok_iff.2 ⟨hne, mapM_eq_ok_iff.1 hps, rfl, rfl⟩⟩

theorem distinct_of_mem_entries {x : Json} (hv : v.Distinct) (h : x ∈ v.entries) : x.Distinct := by
  cases hv with
  | arr hitems => exact hitems x h
  | null | bool | int | float | str =>
    rw [List.mem_singleton.1 h]
    constructor
  | obj hnames hfields =>
    rw [List.mem_singleton.1 h]
    exact .obj hnames hfields

/-- A file whose text stands for a value, for whatever reads it, is taken if and only if each entry
of the value keeps to the rules, and then its sets are what the entries mean, one after the
other. -/
theorem meaning_of_ofText {read : String → Option Json} {text : String} {v : Json}
    (htext : read text = some v) (hv : v.Distinct) :
    ((∃ sets, ofText read text = .ok sets) ↔ ∀ x ∈ v.entries, IsEntry x) ∧
      ∀ sets, ofText read text = .ok sets → List.Forall₂ Means v.entries sets := by
  have hof : ofText read text = ofJson v := by rw [ofText, htext]
  simp only [hof, ofJson_eq_ok_iff]
  constructor
  · rw [exists_forall₂_iff]
    exact forall₂_congr fun x hx => exists_isOf_iff (distinct_of_mem_entries hv hx)
  · intro sets hsets
    have hboth := (List.forall₂_and_left _ _).2
      ⟨fun x hx => distinct_of_mem_entries hv hx, hsets⟩
    exact hboth.imp fun x set h => (h.2.means h.1).2

/-- The value of a file with one entry, which sets `Log` for all families but not for `c2`. -/
def loggingValue : Json :=
  .arr [.obj [("match", .str "A::*"), ("Log", .bool true), ("Mode", .str "fast"),
    ("c2", .obj [("Log", .bool false), ("Mode", .str "slow")])]]

/-- The text of that file. -/
def loggingText : String := loggingValue.text

theorem distinct_loggingValue : loggingValue.Distinct := by
  refine .arr ?_
  simp only [List.mem_singleton, forall_eq]
  refine .obj (by decide) ?_
  simp only [List.forall_mem_cons]
  refine ⟨.str _, .bool _, .str _, .obj (by decide) ?_, nofun⟩
  simp only [List.forall_mem_cons]
  exact ⟨.bool _, .str _, nofun⟩

theorem ofText?_loggingText : Json.ofText? loggingText = some loggingValue := by
  cbv

/-- There the object's own options count for `c1`, and those of the section for `c2`. -/
theorem meaning_of_loggingText :
    ((∃ sets, ofText Json.ofText? loggingText = .ok sets) ↔ ∀ x ∈ loggingValue.entries, IsEntry x) ∧
      ∃ set, ofText Json.ofText? loggingText = .ok [set] ∧
        List.Forall₂ Means loggingValue.entries [set] ∧
        (set.forKind .c1).log = true ∧ (set.forKind .external).log = false ∧
        (set.forKind .c1).options = [("Mode", .str "fast")] ∧
        (set.forKind .external).options = [("Mode", .str "slow")] := by
  have hmeaning := meaning_of_ofText ofText?_loggingText distinct_loggingValue
  have hread : ofText Json.ofText? loggingText = ofJson loggingValue := by
    rw [ofText, ofText?_loggingText]
  refine ⟨hmeaning.1, _, hread.trans rfl, hmeaning.2 _ (hread.trans rfl), rfl, rfl, rfl, rfl⟩

end DirectiveSet

end JitBroker
