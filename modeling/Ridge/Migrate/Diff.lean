import Ridge.Lib.KeyedList
import Ridge.Migrate.Op

/-!
# std.migrate — schema diffing

`diffSchemas` of `stdlib/migrate.ridge`: the steps that turn one model snapshot into another.
Created tables come first, ordered by the foreign keys among them; then, in the order of the new
snapshot, the column changes of the tables in both; then the dropped tables, in the order of the
old snapshot.
-/

namespace Ridge

variable {schemas : Snapshot}

/-- A model snapshot: the entity schemas of a project. -/
abbrev Snapshot := List EntitySchema

/-! ## Lookups -/

def containsTable (table : String) : Snapshot → Bool
  | [] => false
  | s :: rest => if s.table = table then true else containsTable table rest

def findTable (table : String) : Snapshot → Option EntitySchema
  | [] => none
  | s :: rest => if s.table = table then some s else findTable table rest

def containsColumn (name : String) : List ColumnSchema → Bool
  | [] => false
  | c :: rest => if c.column = name then true else containsColumn name rest

def findColumn (name : String) : List ColumnSchema → Option ColumnSchema
  | [] => none
  | c :: rest => if c.column = name then some c else findColumn name rest

def listContainsText (x : String) : List String → Bool
  | [] => false
  | h :: rest => if h = x then true else listContainsText x rest

/-! The lookups are the list library's, by the name of a table or of a column. -/

theorem findTable_eq (t : String) (schemas : Snapshot) :
    findTable t schemas = schemas.find? (·.table = t) := by
  induction schemas with
  | nil => rfl
  | cons s rest ih =>
    unfold findTable
    split
    · next h => simp [h]
    · next h => simp [h, ih]

theorem findColumn_eq (n : String) (cols : List ColumnSchema) :
    findColumn n cols = cols.find? (·.column = n) := by
  induction cols with
  | nil => rfl
  | cons c rest ih =>
    unfold findColumn
    split
    · next h => simp [h]
    · next h => simp [h, ih]

variable {t : String}

theorem containsTable_iff : containsTable t schemas = true ↔ t ∈ schemas.map (·.table) := by
  induction schemas with
  | nil => simp [containsTable]
  | cons s rest ih =>
    unfold containsTable
    split
    · next h => simp [h]
    · next h => simp [ih, Ne.symm h]

variable {cols : List ColumnSchema}

variable {n : String}

theorem containsColumn_iff : containsColumn n cols = true ↔ n ∈ cols.map (·.column) := by
  induction cols with
  | nil => simp [containsColumn]
  | cons c rest ih =>
    unfold containsColumn
    split
    · next h => simp [h]
    · next h => simp [ih, Ne.symm h]

theorem listContainsText_iff {x : String} {xs : List String} :
    listContainsText x xs = true ↔ x ∈ xs := by
  induction xs with
  | nil => simp [listContainsText]
  | cons h rest ih =>
    unfold listContainsText
    split
    · next heq => simp [heq]
    · next hne => simp [ih, Ne.symm hne]

variable {s : EntitySchema}

theorem findTable_some (h : findTable t schemas = some s) : s ∈ schemas ∧ s.table = t :=
  find?_key_some (findTable_eq t schemas ▸ h)

theorem findColumn_some {c : ColumnSchema} (h : findColumn n cols = some c) :
    c ∈ cols ∧ c.column = n :=
  find?_key_some (findColumn_eq n cols ▸ h)

theorem findTable_eq_none_iff : findTable t schemas = none ↔ t ∉ schemas.map (·.table) := by
  rw [findTable_eq, find?_key_eq_none_iff]

theorem findColumn_eq_none_iff : findColumn n cols = none ↔ n ∉ cols.map (·.column) := by
  rw [findColumn_eq, find?_key_eq_none_iff]

/-! ## Created tables -/

def newSchemas (prev : Snapshot) : Snapshot → Snapshot
  | [] => []
  | s :: rest =>
    if containsTable s.table prev then newSchemas prev rest else s :: newSchemas prev rest

def columnTargets : List ColumnSchema → List String
  | [] => []
  | c :: rest =>
    match c.foreignKey with
    | none => columnTargets rest
    | some fk => fk.table :: columnTargets rest

def keepTargets (createNames : List String) (selfTable : String) : List String → List String
  | [] => []
  | t :: rest =>
    if t = selfTable then keepTargets createNames selfTable rest
    else if listContainsText t createNames then t :: keepTargets createNames selfTable rest
    else keepTargets createNames selfTable rest

/-- The tables a schema references that are themselves being created, but for itself. -/
def foreignKeyTargetsInSet (s : EntitySchema) (createNames : List String) : List String :=
  keepTargets createNames s.table (columnTargets s.columns)

def allIn (pool : List String) : List String → Bool
  | [] => true
  | n :: rest => if listContainsText n pool then allIn pool rest else false

def removeSchema (table : String) : Snapshot → Snapshot
  | [] => []
  | s :: rest => if s.table = table then rest else s :: removeSchema table rest

def tableNamesOf : Snapshot → List String
  | [] => []
  | s :: rest => s.table :: tableNamesOf rest

def pickReady (createNames placed : List String) : Snapshot → Option EntitySchema
  | [] => none
  | s :: rest =>
    if allIn placed (foreignKeyTargetsInSet s createNames) then some s
    else pickReady createNames placed rest

theorem removeSchema_length_lt (h : s ∈ schemas) :
    (removeSchema s.table schemas).length < schemas.length := by
  induction schemas with
  | nil => simp at h
  | cons s' rest ih =>
    unfold removeSchema
    split
    · simp
    · next hne =>
      have hs : s ∈ rest := by
        rcases List.mem_cons.mp h with rfl | hs
        · exact absurd rfl hne
        · exact hs
      simpa using ih hs

theorem pickReady_mem {createNames placed : List String}
    (h : pickReady createNames placed schemas = some s) : s ∈ schemas := by
  induction schemas with
  | nil => simp [pickReady] at h
  | cons s' rest ih =>
    unfold pickReady at h
    split at h
    · simp_all
    · exact List.mem_cons_of_mem _ (ih h)

/-- Take the first schema whose targets are all placed, or the head when there is none. -/
def emitReady (createNames : List String) (remaining : Snapshot) (placed : List String) :
    Snapshot :=
  match remaining with
  | [] => []
  | h :: rest =>
    match _hpick : pickReady createNames placed (h :: rest) with
    | some s =>
      s :: emitReady createNames (removeSchema s.table (h :: rest)) (s.table :: placed)
    | none => h :: emitReady createNames rest (h.table :: placed)
termination_by remaining.length
decreasing_by
  · exact removeSchema_length_lt (pickReady_mem _hpick)
  · simp

def orderByForeignKey (schemas : Snapshot) : Snapshot :=
  emitReady (tableNamesOf schemas) schemas []

def createEntities : Snapshot → List MigrationOp
  | [] => []
  | s :: rest => .createEntity s :: createEntities rest

def createdTables (prev next : Snapshot) : List MigrationOp :=
  createEntities (orderByForeignKey (newSchemas prev next))

/-! ## Column changes -/

section Columns

variable (table : String) (oldCols newCols : List ColumnSchema)

def addedColumns : List ColumnSchema → List MigrationOp
  | [] => []
  | c :: rest =>
    if containsColumn c.column oldCols then addedColumns rest
    else .addEntityColumn table c :: addedColumns rest

def alteredColumns : List ColumnSchema → List MigrationOp
  | [] => []
  | c :: rest =>
    match findColumn c.column oldCols with
    | none => alteredColumns rest
    | some old =>
      if columnAltered old c then .alterColumn table old c :: alteredColumns rest
      else alteredColumns rest

def wasNotIndexed (name : String) : Bool :=
  match findColumn name oldCols with
  | none => true
  | some oc => if oc.indexed then false else true

def newlyIndexed (c : ColumnSchema) : Bool :=
  if c.indexed then wasNotIndexed oldCols c.column else false

def createdIndexes : List ColumnSchema → List MigrationOp
  | [] => []
  | c :: rest =>
    if newlyIndexed oldCols c then
      .createIndex (indexName table c.column) table [c.column] false :: createdIndexes rest
    else createdIndexes rest

def stillPresentUnindexed (name : String) : Bool :=
  match findColumn name newCols with
  | none => false
  | some nc => if nc.indexed then false else true

def indexRemoved (c : ColumnSchema) : Bool :=
  if c.indexed then stillPresentUnindexed newCols c.column else false

def droppedIndexes : List ColumnSchema → List MigrationOp
  | [] => []
  | c :: rest =>
    if indexRemoved newCols c then
      .dropIndex (indexName table c.column) :: droppedIndexes rest
    else droppedIndexes rest

def droppedColumns : List ColumnSchema → List MigrationOp
  | [] => []
  | c :: rest =>
    if containsColumn c.column newCols then droppedColumns rest
    else .dropColumn table c.column :: droppedColumns rest

end Columns

/-- Adds, then alters, then index creates and drops, then column drops. -/
def columnDiff (old new : EntitySchema) : List MigrationOp :=
  addedColumns new.table old.columns new.columns ++
    (alteredColumns new.table old.columns new.columns ++
      (createdIndexes new.table old.columns new.columns ++
        (droppedIndexes new.table new.columns old.columns ++
          droppedColumns new.table new.columns old.columns)))

def alteredTables (prev : Snapshot) : Snapshot → List MigrationOp
  | [] => []
  | s :: rest =>
    match findTable s.table prev with
    | none => alteredTables prev rest
    | some old => columnDiff old s ++ alteredTables prev rest

/-! ## Dropped tables and the whole diff -/

def droppedTables (next : Snapshot) : Snapshot → List MigrationOp
  | [] => []
  | s :: rest =>
    if containsTable s.table next then droppedTables next rest
    else .dropTable s.table :: droppedTables next rest

def diffSchemas (prev next : Snapshot) : List MigrationOp :=
  createdTables prev next ++ (alteredTables prev next ++ droppedTables next prev)

end Ridge
