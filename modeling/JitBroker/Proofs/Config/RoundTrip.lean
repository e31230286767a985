import JitBroker.Config.Document
import JitBroker.Proofs.Toml.Codec

/-!
# A configuration survives being written and read

A valid configuration is written exactly if all its numbers can stand in a document, and the text,
read back, is the configuration (`text_read_back`), whatever faithful writer and reader of TOML
documents are taken (`Toml.Codec.Faithful`). What these do not know is the names of the settings,
the spelling of names out of fixed sets, the window that is left out, and the defaults: the document
of a configuration is one that they keep (`isPlain_sheet`), and the settings are found again in it
(`ofJson?_toJson`).
-/

namespace JitBroker

/-! ### Settings and documents -/

/-- The settings of a window with their values. -/
def IdRange.pairs (r : IdRange) : List (String × Json) :=
  [("start", .int r.start.toNat), ("stop", .int r.stop.toNat)]

/-- The settings of a tier with their values. -/
def TierConfig.pairs (t : TierConfig) : List (String × Json) :=
  [("level", .int t.level.toNat), ("compiler", .str t.compiler.name),
    ("enabled", .bool t.enabled), ("max_workers", .int t.maxWorkers.toNat),
    ("min_workers", .int t.minWorkers.toNat), ("tasks_per_thread", .int t.tasksPerThread.toNat),
    ("per_worker_memory_budget", .int t.memoryBudget.toNat),
    ("per_worker_code_budget", .int t.codeBudget.toNat),
    ("retire_idle_ms", .int t.retireIdleMs.toNat), ("blob_kind", .str t.blobKind.name),
    ("buffer_size", .int t.bufferSize.toNat)]

theorem Config.nodup_names : names.Nodup := by decide +kernel

/-- The settings of a window have different names. -/
theorem IdRange.nodup_names_pairs (r : IdRange) : (Toml.names r.pairs).Nodup :=
  have distinct : names.Nodup := by decide
  distinct

/-- The settings of a tier have different names. -/
theorem TierConfig.nodup_names_pairs (t : TierConfig) : (Toml.names t.pairs).Nodup :=
  have distinct : names.Nodup := by decide +kernel
  distinct

theorem IdRange.toJson_eq (r : IdRange) : r.toJson = .obj r.pairs := rfl

theorem TierConfig.toJson_eq (t : TierConfig) : t.toJson = .obj t.pairs := rfl

namespace Json

theorem natBelow?_of_lt {n bound : Nat} (h : n < bound) : (Json.int n).natBelow? bound = some n := by
  have both : 0 ≤ (n : Int) ∧ (n : Int) < bound := ⟨Int.natCast_nonneg n, Int.ofNat_lt.2 h⟩
  rw [natBelow?, if_pos both, Int.toNat_natCast]

@[simp] theorem word8?_toNat (n : UInt8) : (Json.int n.toNat).word8? = some n := by
  simp [word8?, natBelow?_of_lt n.toNat_lt_size]

@[simp] theorem word32?_toNat (n : UInt32) : (Json.int n.toNat).word32? = some n := by
  simp [word32?, natBelow?_of_lt n.toNat_lt_size]

@[simp] theorem word64?_toNat (n : UInt64) : (Json.int n.toNat).word64? = some n := by
  simp [word64?, natBelow?_of_lt n.toNat_lt_size]

@[simp] theorem bool?_bool (b : Bool) : (Json.bool b).bool? = some b := rfl

/-- Among fields of different names, each is found by its name. -/
theorem field?_of_mem {fields : List (String × Json)} (hnodup : (Toml.names fields).Nodup) :
    ∀ p ∈ fields, (Json.obj fields).field? p.1 = some p.2 := by
  intro p hp
  cases h : fields.reverse.find? (·.1 == p.1) with
  | none =>
    have absent := List.find?_eq_none.1 h p (List.mem_reverse.2 hp)
    simp at absent
  | some q =>
    have hq : q ∈ fields := List.mem_reverse.1 (List.mem_of_find?_eq_some h)
    have hname : q.1 = p.1 := by simpa using List.find?_some h
    obtain rfl := List.inj_on_of_nodup_map hnodup hq hp hname
    simp [field?, h]

/-- A name that no field has is not found. -/
theorem field?_of_notMem {fields : List (String × Json)} {key : String}
    (h : key ∉ Toml.names fields) : (Json.obj fields).field? key = none := by
  have none_of : fields.reverse.find? (·.1 == key) = none := by
    refine List.find?_eq_none.2 fun p hp => ?_
    have hmem : p.1 ∈ Toml.names fields := List.mem_map_of_mem (List.mem_reverse.1 hp)
    simpa using ne_of_mem_of_not_mem hmem h
  simp [field?, none_of]

theorem nullable?_obj {α : Type} (read : Json → Option α) (fields : List (String × Json)) :
    nullable? read (.obj fields) = (read (.obj fields)).map some := rfl

end Json

/-- A setting that is found is read, and the reading goes on with it. -/
theorem setting?_bind {α β : Type} {read : Json → Option α} {default a : α} {o : Option Json}
    {v : Json} {next : α → Option β} {b : β} (hfound : o = some v) (hread : read v = some a)
    (hnext : next a = some b) : (setting? read default o >>= next) = some b := by
  subst hfound
  exact Option.bind_eq_some_iff.2 ⟨a, hread, hnext⟩

section settings

variable {rules : DocumentRules} {processors : Nat} {v : Json} {field : String → Option Json}

/-- A window is read from the values of its settings. -/
theorem IdRange.ofJson?_of_found {r : IdRange} (hv : rules.settings? names v = some field)
    (found : ∀ p ∈ r.pairs, field p.1 = some p.2) : ofJson? rules v = some r := by
  simp only [pairs, List.forall_mem_cons] at found
  obtain ⟨start, stop, -⟩ := found
  refine Option.bind_eq_some_iff.2 ⟨field, hv, ?_⟩
  refine Option.bind_eq_some_iff.2 ⟨_, start, ?_⟩
  refine Option.bind_eq_some_iff.2 ⟨_, Json.word32?_toNat r.start, ?_⟩
  refine Option.bind_eq_some_iff.2 ⟨_, stop, ?_⟩
  exact Option.bind_eq_some_iff.2 ⟨_, Json.word32?_toNat r.stop, rfl⟩

/-- A tier is read from the values of its settings. -/
theorem TierConfig.ofJson?_of_found {t : TierConfig} (hv : rules.settings? names v = some field)
    (found : ∀ p ∈ t.pairs, field p.1 = some p.2) : ofJson? rules processors v = some t := by
  simp only [pairs, List.forall_mem_cons] at found
  obtain ⟨level, compiler, enabled, maxWorkers, minWorkers, tasksPerThread, memoryBudget,
    codeBudget, retireIdleMs, blobKind, bufferSize, -⟩ := found
  -- setting by setting, since `simp` would go through what is still to be read twice for each
  refine Option.bind_eq_some_iff.2 ⟨field, hv, ?_⟩
  refine setting?_bind level (Json.word8?_toNat _) ?_
  refine setting?_bind compiler (CompilerKind.ofName?_name _) ?_
  refine setting?_bind enabled (Json.bool?_bool _) ?_
  refine setting?_bind maxWorkers (Json.word64?_toNat _) ?_
  refine setting?_bind minWorkers (Json.word64?_toNat _) ?_
  refine setting?_bind tasksPerThread (Json.word64?_toNat _) ?_
  refine setting?_bind memoryBudget (Json.word64?_toNat _) ?_
  refine setting?_bind codeBudget (Json.word64?_toNat _) ?_
  refine setting?_bind retireIdleMs (Json.word64?_toNat _) ?_
  refine setting?_bind blobKind (BlobKind.ofName?_name _) ?_
  exact setting?_bind bufferSize (Json.word64?_toNat _) rfl

/-- A window is found again in its document. -/
theorem IdRange.ofJson?_toJson (r : IdRange) : ofJson? rules r.toJson = some r :=
  ofJson?_of_found rfl (Json.field?_of_mem r.nodup_names_pairs)

/-- A tier is found again in its document. -/
theorem TierConfig.ofJson?_toJson (t : TierConfig) : ofJson? rules processors t.toJson = some t :=
  ofJson?_of_found rfl (Json.field?_of_mem t.nodup_names_pairs)

/-- The tiers are found again in their document. -/
theorem Config.tiers?_toJson (ts : List TierConfig) :
    tiers? rules processors (.arr (ts.map TierConfig.toJson)) = some ts := by
  rw [tiers?]
  induction ts with
  | nil => rfl
  | cons t ts ih => simp [TierConfig.ofJson?_toJson, ih]

/-- The window as a table, if it is set. -/
def Config.tables (c : Config) : List (String × List (String × Json)) :=
  c.idRange.toList.map fun r => ("compile_id_range", r.pairs)

theorem Config.toJson_eq (c : Config) : c.toJson = .obj (c.scalars ++
    (c.tables.map fun t => (t.1, Json.obj t.2)) ++
    [("tiers", Json.arr (c.tiers.map TierConfig.toJson))]) := by
  simp [toJson, tables, IdRange.toJson_eq]

/-- The names of the single values of a configuration, of its tables and of the list of its tiers
are some of the names of settings, in the same order. -/
theorem Config.names_sublist (c : Config) :
    (Toml.names c.scalars ++ Toml.names c.tables ++ ["tiers"]).Sublist names := by
  cases h : c.idRange with
  | none => simp [h, scalars, tables, names]
  | some r => simp [h, scalars, tables, names]

/-- A configuration is read from the values of its settings. -/
theorem Config.ofJson?_of_found {c : Config} (hv : rules.settings? names v = some field)
    (found : ∀ p ∈ c.scalars, field p.1 = some p.2)
    (range : field "compile_id_range" = c.idRange.map IdRange.toJson)
    (tiers : field "tiers" = some (.arr (c.tiers.map TierConfig.toJson))) :
    ofJson? rules processors v = some c := by
  simp only [scalars, List.forall_mem_cons] at found
  obtain ⟨dynamicPool, reduceWorkersOnIdle, backgroundDefault, acceptDefault, sliceMs, slicesMax,
    queueWaitMs, eviction, restartHeadroom, maxLiveTasks, logCompilation, logCapacity,
    recordTraining, -⟩ := found
  refine Option.bind_eq_some_iff.2 ⟨field, hv, ?_⟩
  refine setting?_bind dynamicPool (Json.bool?_bool _) ?_
  refine setting?_bind reduceWorkersOnIdle (Json.bool?_bool _) ?_
  refine setting?_bind backgroundDefault (Json.bool?_bool _) ?_
  refine setting?_bind acceptDefault (Json.bool?_bool _) ?_
  refine setting?_bind sliceMs (Json.word64?_toNat _) ?_
  refine setting?_bind slicesMax (Json.word32?_toNat _) ?_
  refine setting?_bind queueWaitMs (Json.word64?_toNat _) ?_
  refine setting?_bind eviction (Json.bool?_bool _) ?_
  refine setting?_bind restartHeadroom (Json.word64?_toNat _) ?_
  refine setting?_bind maxLiveTasks (Json.word64?_toNat _) ?_
  refine setting?_bind logCompilation (Json.bool?_bool _) ?_
  refine setting?_bind logCapacity (Json.word64?_toNat _) ?_
  refine setting?_bind recordTraining (Json.bool?_bool _) ?_
  refine Option.bind_eq_some_iff.2 ⟨c.idRange, ?_, ?_⟩
  · rw [range]
    cases c.idRange with
    | none => rfl
    | some r =>
      have read : IdRange.ofJson? rules (.obj r.pairs) = some r := IdRange.ofJson?_toJson r
      rw [Option.map_some, setting?, IdRange.toJson_eq, Json.nullable?_obj, read, Option.map_some]
  · exact setting?_bind tiers (tiers?_toJson _) rfl

/-- A configuration is found again in its document. -/
theorem Config.ofJson?_toJson (c : Config) : ofJson? rules processors c.toJson = some c := by
  have hnames : Toml.names (c.scalars ++ (c.tables.map fun t => (t.1, Json.obj t.2)) ++
      [("tiers", .arr (c.tiers.map TierConfig.toJson))]) =
      Toml.names c.scalars ++ Toml.names c.tables ++ ["tiers"] := by
    simp [Toml.names_map fun t : String × List (String × Json) => Json.obj t.2]
  have hnodup := hnames ▸ nodup_names.sublist c.names_sublist
  have found := Json.field?_of_mem hnodup
  rw [toJson_eq]
  refine ofJson?_of_found rfl (fun p hp => found p (by simp [hp])) ?_
    (found ("tiers", .arr (c.tiers.map TierConfig.toJson)) (by simp))
  cases h : c.idRange with
  | none =>
    refine Json.field?_of_notMem ?_
    rw [hnames]
    simp [tables, h, scalars]
  | some r => exact found ("compile_id_range", .obj r.pairs) (by simp [tables, h])

end settings

/-! ### The sheet of a configuration -/

namespace Config

open Toml

variable {codec : Codec} {c : Config}

/-- The configuration as a document with tables one level deep. -/
def sheet (c : Config) : Sheet where
  pairs := c.scalars
  tables := c.tables
  key := "tiers"
  items := c.tiers.map TierConfig.pairs

theorem toJson_sheet (c : Config) : c.sheet.toJson = c.toJson := by
  rw [toJson_eq, Sheet.toJson, sheet, List.map_map]
  rfl

theorem isLiteral_compilerName (k : CompilerKind) : ∀ c ∈ k.name.toList, isLiteral c :=
  List.all_eq_true.1 (by cases k <;> decide)

theorem isLiteral_blobName (k : BlobKind) : ∀ c ∈ k.name.toList, isLiteral c :=
  List.all_eq_true.1 (by cases k <;> decide)

/-- Names that are all bare stand with values that are all plain. -/
theorem plain_of_forall {pairs : List (String × Json)}
    (hnames : ∀ name ∈ Toml.names pairs, IsBareName name)
    (hvalues : ∀ p ∈ pairs, Plain p.2) : ∀ p ∈ pairs, IsBareName p.1 ∧ Plain p.2 :=
  fun p hp => ⟨hnames p.1 (List.mem_map_of_mem hp), hvalues p hp⟩

theorem plain_scalars (c : Config) : ∀ p ∈ c.scalars, IsBareName p.1 ∧ Plain p.2 :=
  have bare : ∀ name ∈ names.take 13, IsBareName name := by decide +kernel
  plain_of_forall bare (by simp [scalars, Plain])

theorem plain_range (r : IdRange) : ∀ p ∈ r.pairs, IsBareName p.1 ∧ Plain p.2 :=
  have bare : ∀ name ∈ IdRange.names, IsBareName name := by decide
  plain_of_forall bare (by simp [IdRange.pairs, Plain])

theorem plain_tier (t : TierConfig) : ∀ p ∈ t.pairs, IsBareName p.1 ∧ Plain p.2 :=
  have bare : ∀ name ∈ TierConfig.names, IsBareName name := by decide +kernel
  plain_of_forall bare (by
    simpa [TierConfig.pairs, Plain] using
      And.intro (isLiteral_compilerName t.compiler) (isLiteral_blobName t.blobKind))

/-- The document of a configuration with tiers is plain. -/
theorem isPlain_sheet (hne : c.tiers ≠ []) : c.sheet.IsPlain where
  cells := by
    simp only [Sheet.cells, sheet, tables, List.forall_mem_append, List.forall_mem_flatMap,
      List.forall_mem_flatten, List.forall_mem_map]
    exact ⟨⟨c.plain_scalars, fun r _ => plain_range r⟩, fun t _ => plain_tier t⟩
  headers := by
    have bare : ∀ name ∈ ["compile_id_range", "tiers"], IsBareName name := by decide
    refine fun name hname => bare name ?_
    cases h : c.idRange <;> simp_all [sheet, tables, Toml.names]
  nodup := nodup_names.sublist c.names_sublist
  nodup_tables := by
    intro t ht
    obtain ⟨r, -, rfl⟩ := List.mem_map.1 ht
    exact r.nodup_names_pairs
  nodup_items := by
    intro pairs hpairs
    obtain ⟨t, -, rfl⟩ := List.mem_map.1 hpairs
    exact t.nodup_names_pairs
  pairs_ne_nil := List.cons_ne_nil _ _
  items_ne_nil := by simpa [sheet] using hne

/-! ### Numbers that fit -/

/-- The numbers of a configuration. -/
def numbers (c : Config) : List Nat :=
  [c.sliceMs.toNat, c.slicesMax.toNat, c.queueWaitMs.toNat, c.restartHeadroom.toNat,
    c.maxLiveTasks.toNat, c.logCapacity.toNat] ++
  (c.idRange.toList.flatMap fun r => [r.start.toNat, r.stop.toNat]) ++
  c.tiers.flatMap fun t => [t.level.toNat, t.maxWorkers.toNat, t.minWorkers.toNat,
    t.tasksPerThread.toNat, t.memoryBudget.toNat, t.codeBudget.toNat, t.retireIdleMs.toNat,
    t.bufferSize.toNat]

/-- The numbers of a configuration fit if the values in its document do. -/
theorem fits_sheet : (∀ p ∈ c.sheet.cells, Fits p.2) ↔ ∀ n ∈ c.numbers, n ≤ 2 ^ 63 - 1 := by
  have nat (n : Nat) : Fits (.int n) ↔ n ≤ 2 ^ 63 - 1 := by
    rw [Fits]
    omega
  simp only [Sheet.cells, sheet, tables, numbers, scalars, IdRange.pairs, TierConfig.pairs,
    List.forall_mem_append, List.forall_mem_flatMap, List.forall_mem_flatten, List.forall_mem_map,
    List.forall_mem_cons, nat]
  simp [Fits, and_assoc]

/-! ### The round trip -/

/-- A valid configuration has a tier. -/
theorem tiers_ne_nil_of_validate (h : c.validate = .ok ()) : c.tiers ≠ [] := by
  intro hnil
  simp [validate, fault?, hnil] at h

/-- **A valid configuration survives being written and read**, by whatever faithful writer and reader
of TOML documents. It is written exactly if each of its numbers is at most `2 ^ 63 - 1`, and what is
read from the text is the configuration. -/
theorem text_read_back (hcodec : codec.Faithful) (processors : Nat) (c : Config)
    (hvalid : c.validate = .ok ()) :
    ((c.writeText? codec).isSome ↔ ∀ n ∈ c.numbers, n ≤ 2 ^ 63 - 1) ∧
      ∀ text, c.writeText? codec = some text → readText codec processors text = .ok c := by
  have hplain := isPlain_sheet (tiers_ne_nil_of_validate hvalid)
  rw [← fits_sheet, writeText?, ← toJson_sheet]
  refine ⟨⟨fun hsome p hp => ?_, hcodec.writes hplain⟩, fun text h => ?_⟩
  · by_contra hfits
    rw [hcodec.refuses hplain p hp hfits] at hsome
    cases hsome
  · rw [readText, hcodec.reads hplain h, toJson_sheet]
    simp [ofToml, ofJson?_toJson, hvalid]

/-- A window and two tiers, the first of them without a buffer. -/
def twoTiers : Config where
  idRange := some ⟨1, 100⟩
  tiers := [⟨1, .c1, true, 3, 1, 4, 4096, 512, 500, .profiled, 0⟩,
    ⟨4, .external, false, 2, 2, 2, 8192, 512, 100, .nonProfiled, 64⟩]

/-- A configuration with a window and two tiers has a text and is read from it. -/
theorem text_read_back_twoTiers : Toml.codec.Faithful ∧ twoTiers.validate = .ok () ∧
    twoTiers.toText?.isSome ∧ ∀ text, twoTiers.toText? = some text → ofText 1 text = .ok twoTiers :=
  have read := text_read_back faithful_codec 1 twoTiers rfl
  ⟨faithful_codec, rfl, read.1.2 (by decide), read.2⟩

end Config

end JitBroker
