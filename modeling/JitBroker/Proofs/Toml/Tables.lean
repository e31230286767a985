import JitBroker.Toml
import Mathlib.Data.List.Nodup

/-!
# The value of a document with tables one level deep

A document may consist of pairs, tables of pairs, and one list of tables of pairs, in this order.
If no name is given twice in a table or in the whole document, its value is an object with all of
these as its fields, in their order (`ofStatements?_flat`).

The document under construction is known at every statement: a table that is open has taken a pair
when its fields have one more at their end. `Open` says this of the place where the open table
stands, which is the document itself, a table, or the latest table of a list.
-/

namespace JitBroker.Toml

variable {α : Type} {f : Option Node → Option Node} {key : String} {node : Node}
  {fields before : Fields} {v : Json} {d : Document} {put : Fields → Document}

/-- The names of fields. -/
def names (fields : List (String × α)) : List String := fields.map Prod.fst

@[simp] theorem names_nil : names ([] : List (String × α)) = [] := rfl

@[simp] theorem names_cons (field : String × α) (fields : List (String × α)) :
    names (field :: fields) = field.1 :: names fields := rfl

@[simp] theorem names_append (fields others : List (String × α)) :
    names (fields ++ others) = names fields ++ names others := List.map_append

/-- The fields of a table that only holds values. -/
def values (pairs : List (String × Json)) : Fields := pairs.map fun (k, v) => (k, .value v)

/-- The statements that put values into the open table. -/
def pairsOf (pairs : List (String × Json)) : List Statement :=
  pairs.map fun (k, v) => .pair ⟨[], k⟩ v

/-- New values leave the names as they are. -/
theorem names_map {β : Type} (g : String × α → β) (fields : List (String × α)) :
    names (fields.map fun field => (field.1, g field)) = names fields := by
  simp [names, Function.comp_def]

@[simp] theorem names_values (pairs : List (String × Json)) : names (values pairs) = names pairs :=
  names_map (fun pair => Node.value pair.2) pairs

/-! ### Changing a field -/

/-- A new field comes last. -/
theorem alter_of_notMem (h : key ∉ names fields) :
    fields.alter key f = (f none).map fun node => fields ++ [(key, node)] := by
  induction fields with
  | nil => rfl
  | cons field fields ih =>
    obtain ⟨k, other⟩ := field
    simp only [names_cons, List.mem_cons, not_or] at h
    rw [Fields.alter, if_neg (Ne.symm h.1), ih h.2, Option.map_map]
    rfl

/-- A field that comes last is changed in its place. -/
theorem alter_append (h : key ∉ names before) :
    Fields.alter key f (before ++ [(key, node)]) =
      (f (some node)).map fun node => before ++ [(key, node)] := by
  induction before with
  | nil => simp [Fields.alter]
  | cons field before ih =>
    obtain ⟨k, other⟩ := field
    simp only [names_cons, List.mem_cons, not_or] at h
    rw [List.cons_append, Fields.alter, if_neg (Ne.symm h.1), ih h.2, Option.map_map]
    rfl

/-- A value with a new name comes last in its table. -/
theorem insertAt_of_notMem (h : key ∉ names fields) :
    fields.insertAt [] key v = some (fields ++ [(key, Node.value v)]) := by
  simp [Fields.insertAt, Fields.within, alter_of_notMem h]

/-! ### Pairs -/

/-- The open table stands where `put` says: a pair with a new name comes last in it. -/
def Open (put : Fields → Document) : Prop :=
  ∀ ⦃fields : Fields⦄ ⦃key : String⦄ (v : Json), key ∉ names fields →
    (put fields).add (.pair ⟨[], key⟩ v) = some (put (fields ++ [(key, .value v)]))

/-- Pairs without a repeated name are taken by the open table in their order. -/
theorem Open.foldlM_pairsOf (h : Open put) (done : List (String × Json))
    {pairs : List (String × Json)} (hnodup : (names (done ++ pairs)).Nodup) :
    (pairsOf pairs).foldlM Document.add (put (values done)) =
      some (put (values (done ++ pairs))) := by
  induction pairs generalizing done with
  | nil => simp [pairsOf]
  | cons pair pairs ih =>
    obtain ⟨key, v⟩ := pair
    have new : key ∉ names (values done) := by
      rw [names_values]
      rw [names_append] at hnodup
      exact fun hmem => List.disjoint_of_nodup_append hnodup hmem List.mem_cons_self
    have more : values done ++ [(key, .value v)] = values (done ++ [(key, v)]) := by simp [values]
    rw [pairsOf, List.map_cons, List.foldlM_cons, h v new, more]
    have rest := ih (done ++ [(key, v)]) (by simpa using hnodup)
    simpa [pairsOf] using rest

/-- At the start the document itself is open. -/
theorem open_root : Open fun fields => ⟨fields, []⟩ := by
  intro fields key v h
  simp [Document.add, Fields.within, insertAt_of_notMem h]

/-- The table that comes last is open. -/
theorem open_table (hkey : key ∉ names before) :
    Open fun fields => ⟨before ++ [(key, Node.table false false fields)], [key]⟩ := by
  intro fields name v h
  simp [Document.add, Fields.within, alter_append hkey, insertAt_of_notMem h]

/-- The latest table of the list that comes last is open. -/
theorem open_item (hkey : key ∉ names before) (earlier : List Fields) :
    Open fun fields => ⟨before ++ [(key, Node.tables (fields :: earlier))], [key]⟩ := by
  intro fields name v h
  simp [Document.add, Fields.within, alter_append hkey, insertAt_of_notMem h]

/-! ### Tables -/

/-- The statements of a table of values. -/
def tableOf (table : String × List (String × Json)) : List Statement :=
  .table ⟨[], table.1⟩ :: pairsOf table.2

/-- The field of a table of values. -/
def tableField (table : String × List (String × Json)) : String × Node :=
  (table.1, .table false false (values table.2))

@[simp] theorem names_tableField (tables : List (String × List (String × Json))) :
    names (tables.map tableField) = names tables :=
  names_map (fun table => Node.table false false (values table.2)) tables

/-- Tables without a repeated name are taken by the document in their order. -/
theorem foldlM_tableOf {tables : List (String × List (String × Json))}
    (hnodup : (names d.root ++ names tables).Nodup) (hpairs : ∀ t ∈ tables, (names t.2).Nodup) :
    ∃ here, (tables.flatMap tableOf).foldlM Document.add d =
      some ⟨d.root ++ tables.map tableField, here⟩ := by
  induction tables generalizing d with
  | nil => exact ⟨d.here, by simp⟩
  | cons table tables ih =>
    obtain ⟨key, pairs⟩ := table
    rw [List.forall_mem_cons] at hpairs
    have new : key ∉ names d.root := fun hmem =>
      List.disjoint_of_nodup_append hnodup hmem List.mem_cons_self
    have opened : d.add (.table ⟨[], key⟩) =
        some ⟨d.root ++ [(key, Node.table false false [])], [key]⟩ := by
      simp [Document.add, Fields.openTable, Fields.within, alter_of_notMem new]
    have filled := (open_table new).foldlM_pairsOf [] (by simpa using hpairs.1)
    obtain ⟨here, rest⟩ := ih (d := ⟨d.root ++ [tableField (key, pairs)], [key]⟩)
      (by simpa [tableField] using hnodup) hpairs.2
    refine ⟨here, ?_⟩
    rw [List.flatMap_cons, List.foldlM_append, tableOf, List.foldlM_cons, opened]
    simp only [Option.bind_eq_bind, Option.bind_some]
    change Option.bind ((pairsOf pairs).foldlM Document.add
      ⟨d.root ++ [(key, Node.table false false (values []))], [key]⟩) _ = _
    rw [filled]
    simpa [tableField] using rest

/-! ### A list of tables -/

/-- The statements of a table of values in the list of a name. -/
def itemOf (key : String) (pairs : List (String × Json)) : List Statement :=
  .item ⟨[], key⟩ :: pairsOf pairs

/-- The fields with a list of tables, the latest first, if there are any. -/
def listed (before : Fields) (key : String) : List Fields → Fields
  | [] => before
  | items => before ++ [(key, .tables items)]

/-- A further table comes first in the list. -/
theorem openItem_listed (hkey : key ∉ names before) (items : List Fields) :
    (listed before key items).openItem [] key = some (listed before key ([] :: items)) := by
  cases items with
  | nil => simp [listed, Fields.openItem, Fields.within, alter_of_notMem hkey]
  | cons latest earlier => simp [listed, Fields.openItem, Fields.within, alter_append hkey]

/-- The tables of a list are taken by the document in their order. -/
theorem foldlM_itemOf (hkey : key ∉ names before) {items : List (List (String × Json))}
    (hpairs : ∀ pairs ∈ items, (names pairs).Nodup) (earlier : List Fields) (here : List String) :
    ∃ here', (items.flatMap (itemOf key)).foldlM Document.add ⟨listed before key earlier, here⟩ =
      some ⟨listed before key ((items.map values).reverse ++ earlier), here'⟩ := by
  induction items generalizing earlier here with
  | nil => exact ⟨here, rfl⟩
  | cons pairs items ih =>
    rw [List.forall_mem_cons] at hpairs
    have filled := (open_item hkey earlier).foldlM_pairsOf [] (by simpa using hpairs.1)
    obtain ⟨here', rest⟩ := ih hpairs.2 (values pairs :: earlier) [key]
    refine ⟨here', ?_⟩
    rw [List.flatMap_cons, List.foldlM_append, itemOf, List.foldlM_cons, Document.add]
    simp only [openItem_listed hkey, Option.bind_eq_bind, Option.bind_some, Option.pure_def,
      List.nil_append]
    change Option.bind ((pairsOf pairs).foldlM Document.add
      ⟨before ++ [(key, Node.tables (values [] :: earlier))], [key]⟩) _ = _
    rw [filled]
    simpa [listed] using rest

/-! ### The value of the document -/

@[simp] theorem fieldsToJson_append (fields others : Fields) :
    fieldsToJson (fields ++ others) = fieldsToJson fields ++ fieldsToJson others := by
  induction fields with
  | nil => rfl
  | cons field fields ih => exact congrArg ((field.1, field.2.toJson) :: ·) ih

@[simp] theorem fieldsToJson_values (pairs : List (String × Json)) :
    fieldsToJson (values pairs) = pairs := by
  induction pairs with
  | nil => rfl
  | cons pair pairs ih => exact congrArg ((pair.1, pair.2) :: ·) ih

@[simp] theorem fieldsToJson_tableField (tables : List (String × List (String × Json))) :
    fieldsToJson (tables.map tableField) = tables.map fun t => (t.1, .obj t.2) := by
  induction tables with
  | nil => rfl
  | cons table tables ih => simp [tableField, fieldsToJson, Node.toJson, ih]

@[simp] theorem itemsToJson_append (items others : List Fields) :
    itemsToJson (items ++ others) = itemsToJson items ++ itemsToJson others := by
  induction items with
  | nil => rfl
  | cons fields items ih => exact congrArg (.obj (fieldsToJson fields) :: ·) ih

@[simp] theorem itemsToJson_values (items : List (List (String × Json))) :
    itemsToJson (items.map values).reverse = (items.map .obj).reverse := by
  induction items with
  | nil => rfl
  | cons pairs items ih => simp [itemsToJson, ih]

/-- A document of pairs, tables of pairs, and a list of tables of pairs, in which no name is
repeated, has all of these as the fields of its value. -/
theorem ofStatements?_flat {pairs : List (String × Json)}
    {tables : List (String × List (String × Json))} {items : List (List (String × Json))}
    (hnames : (names pairs ++ names tables ++ [key]).Nodup)
    (htables : ∀ t ∈ tables, (names t.2).Nodup) (hitems : ∀ t ∈ items, (names t).Nodup)
    (hne : items ≠ []) :
    Document.ofStatements?
        (pairsOf pairs ++ tables.flatMap tableOf ++ items.flatMap (itemOf key)) =
      some (.obj (pairs ++ (tables.map fun t => (t.1, Json.obj t.2)) ++
        [(key, Json.arr (items.map .obj))])) := by
  have distinct : (names pairs ++ names tables).Nodup := hnames.of_append_left
  have atPairs : (pairsOf pairs).foldlM Document.add ⟨values [], []⟩ = some ⟨values pairs, []⟩ :=
    open_root.foldlM_pairsOf [] (by simpa using distinct.of_append_left)
  obtain ⟨here, atTables⟩ := foldlM_tableOf (d := ⟨values pairs, []⟩) (by simpa using distinct)
    htables
  have new : key ∉ names (values pairs ++ tables.map tableField) := by
    rw [names_append, names_values, names_tableField]
    exact fun hmem => List.disjoint_of_nodup_append hnames hmem List.mem_cons_self
  obtain ⟨here', atItems⟩ := foldlM_itemOf new hitems [] here
  have built : (pairsOf pairs ++ tables.flatMap tableOf ++ items.flatMap (itemOf key)).foldlM
      Document.add {} = some ⟨listed (values pairs ++ tables.map tableField) key
        (items.map values).reverse, here'⟩ := by
    rw [List.foldlM_append, List.foldlM_append]
    change ((pairsOf pairs).foldlM Document.add ⟨values [], []⟩ >>= _) >>= _ = _
    rw [atPairs]
    simpa [listed, atTables] using atItems
  have last : ∀ before, listed before key (items.map values).reverse =
      before ++ [(key, Node.tables (items.map values).reverse)] := by
    intro before
    cases h : (items.map values).reverse with
    | nil => exact absurd (List.map_eq_nil_iff.1 (List.reverse_eq_nil_iff.1 h)) hne
    | cons => rfl
  rw [Document.ofStatements?, built]
  simp [last, fieldsToJson, Node.toJson]

end JitBroker.Toml
