import Ridge.Resolve.Symbols

/-!
# Imports

`ridge-resolve/src/imports.rs`: what an `import` line brings into scope, with the visibility rule
asked of each item it names. The standard library's manifest, which the build generates, is a
parameter.
-/

namespace Ridge

abbrev ProjectId := Nat
abbrev StdlibModuleId := Nat

/-- `BuiltinStdlibModule`; its identifier is its position in the manifest. -/
structure BuiltinStdlibModule where
  name : String
  exports : List String
  opaqueTypes : List String
  deriving DecidableEq

/-- `BUILTINS`. -/
abbrev StdlibManifest := List BuiltinStdlibModule

def StdlibManifest.lookupStdlib (builtins : StdlibManifest) (path : String) :
    Option StdlibModuleId :=
  builtins.findIdx? (fun m => m.name = path)

/-- Does the module at this position export the name? -/
def StdlibManifest.exports (builtins : StdlibManifest) (id : StdlibModuleId) (name : String) :
    Bool :=
  (builtins[id]?).any (fun m => m.exports.contains name)

/-! ## Bindings -/

inductive ImportTarget where
  | workspaceModule (id : ModuleId)
  | builtinStdlib (id : StdlibModuleId)
  | external (project : ProjectId) (module : String)
  | unresolved
  deriving DecidableEq

inductive Binding where
  | local_ (id : Nat)
  | moduleSymbol (module : ModuleId) (symbol : SymbolId)
  | importedSymbol (module : ModuleId) (symbol : SymbolId)
  | moduleAlias (target : ImportTarget)
  | stdlibSymbol (module : StdlibModuleId) (name : String)
  | actorName (module : ModuleId) (actor : SymbolId)
  | constructor (ownerType : SymbolId) (variant : Nat) (isRecord : Bool) (ownerModule : ModuleId)
  | fieldAccessor (field : String)
  | classMethod (className method : String)
  | error
  deriving DecidableEq

structure EffectiveBinding where
  localName : String
  binding : Binding
  deriving DecidableEq

/-- `ImportResolution`. An import the prelude makes has no path. -/
structure ImportResolution where
  path : Option String
  target : ImportTarget
  effectiveBindings : List EffectiveBinding
  deriving DecidableEq

/-- `ResolveError`, as far as the modelled passes report. -/
inductive ResolveError where
  | duplicateDeclaration (name : String)
  | unresolvedImportPath (path : String)
  | projectExportViolation (target project : String)
  | unresolvedImportItem (name module : String)
  | visibilityViolation (name : String)
  | unresolvedIdent (name : String)
  | moduleAsValue (name : String)
  | ambiguousMethodName (name firstClass secondClass : String)
  | unresolvedQualifiedName (segments : List String)
  | unknownStdlibSymbol (module name : String)
  | opaqueConstruct (ctorName : String)
  | opaquePattern (ctorName : String)
  deriving DecidableEq

/-! ## Workspaces -/

/-- What the resolver reads of a project's manifest. A glob is the set of names it matches. -/
structure ProjectManifest where
  name : String
  exportsPublic : List (String → Bool)
  exportsInternal : List (String → Bool)

/-- A module of the workspace: its project, its dotted name and its syntax tree. -/
structure ModuleSource where
  project : ProjectId
  fullyQualifiedName : String
  ast : List TopItem

/-- `WorkspaceGraph`; modules and projects are known by their positions. -/
structure WorkspaceGraph where
  builtins : StdlibManifest
  projects : List ProjectManifest
  modules : List ModuleSource

namespace WorkspaceGraph

variable (W : WorkspaceGraph)

/-- The collected tables, one a module. -/
def collected : List Collector :=
  W.modules.zipIdx.map fun m => collectSymbols m.2 m.1.ast

def symbolTables : List SymbolTable := W.collected.map Collector.table

def projectOf (m : ModuleId) : Option ProjectId := (W.modules[m]?).map ModuleSource.project

def classMethodIndex : ClassMethodIndex := .build (W.modules.map ModuleSource.ast)

/-! ## The visibility rule -/

end WorkspaceGraph

def isSymbolVisibleWithin (vis : ResolvedVisibility) (sameProject : Bool) : Bool :=
  match vis with
  | .pub => true
  | .namespaceInternal => true
  | .projectPrivate => sameProject
  | .filePrivate => false

namespace WorkspaceGraph

variable (W : WorkspaceGraph)

/-! ## One import -/

/-- Of two modules of one name the later is found. -/
def fqnIndex (path : String) : Option ModuleId :=
  ((List.range W.modules.length).filter fun m =>
    (W.modules[m]?).any (fun s => s.fullyQualifiedName = path)).getLast?

def resolvePath (path : String) : ImportTarget × List ResolveError :=
  match W.fqnIndex path with
  | some m => (.workspaceModule m, [])
  | none =>
    match W.builtins.lookupStdlib path with
    | some id => (.builtinStdlib id, [])
    | none => (.unresolved, [.unresolvedImportPath path])

def firstSegment (name : String) : List Char := name.toList.takeWhile (· ≠ '.')

variable (fromProject : ProjectId)

/-- A module of another project has to be exported by it. -/
def checkProjectExportVisibility (target : ModuleId) :
    List ResolveError :=
  match W.modules[target]? with
  | none => []
  | some source =>
    if fromProject = source.project then []
    else
      match W.projects[source.project]?, W.projects[fromProject]? with
      | some targetProject, some fromManifest =>
        if targetProject.exportsPublic.any (· source.fullyQualifiedName) then []
        else if firstSegment fromManifest.name = firstSegment targetProject.name ∧
            targetProject.exportsInternal.any (· source.fullyQualifiedName) then []
        else [.projectExportViolation source.fullyQualifiedName targetProject.name]
      | _, _ => []

/-- An item of an import list is looked up, and has to be visible. -/
def resolveItem (target : ImportTarget) (path item : String) :
    Option Binding × List ResolveError :=
  match target with
  | .workspaceModule t =>
    match (W.symbolTables[t]?).bind (SymbolTable.lookup · item) with
    | none => (none, [.unresolvedImportItem item path])
    | some entry =>
      if isSymbolVisibleWithin entry.visibility (W.projectOf t = some fromProject) then
        (some (.importedSymbol t entry.id), [])
      else (none, [.visibilityViolation item])
  | .builtinStdlib id =>
    if W.builtins.exports id item then (some (.stdlibSymbol id item), [])
    else (none, [.unresolvedImportItem item path])
  | .external _ _ => (none, [])
  | .unresolved => (none, [])

def lastSegment (path : String) : String :=
  String.ofList ((path.toList.reverse.takeWhile (· ≠ '.')).reverse)

/-- The bindings of an item list, in order. -/
def resolveItems (fromProject : ProjectId) (target : ImportTarget) (path : String) :
    List String → List EffectiveBinding × List ResolveError
  | [] => ([], [])
  | item :: items =>
    let (binding, errors) := W.resolveItem fromProject target path item
    let (bindings, more) := resolveItems fromProject target path items
    ((binding.toList.map (EffectiveBinding.mk item)) ++ bindings, errors ++ more)

/-- Alias and item list are independent, and an import with neither
binds the last segment of its path. -/
def computeEffectiveBindings (target : ImportTarget) (d : ImportDecl) :
    List EffectiveBinding × List ResolveError :=
  let aliased := d.aliasName.toList.map fun name => ⟨name, .moduleAlias target⟩
  match d.items with
  | some items =>
    if target = .unresolved then (aliased, [])
    else
      let (bindings, errors) := W.resolveItems fromProject target d.path items
      (aliased ++ bindings, errors)
  | none =>
    match d.aliasName with
    | some _ => (aliased, [])
    | none => ([⟨lastSegment d.path, .moduleAlias target⟩], [])

/-- One edge of `resolve_imports`. -/
def resolveImport (d : ImportDecl) :
    ImportResolution × List ResolveError :=
  let (target, pathErrors) := W.resolvePath d.path
  let exportErrors :=
    match target with
    | .workspaceModule t => W.checkProjectExportVisibility fromProject t
    | _ => []
  let (bindings, itemErrors) := W.computeEffectiveBindings fromProject target d
  (⟨some d.path, target, bindings⟩, pathErrors ++ exportErrors ++ itemErrors)

/-! ## The prelude -/

/-- The pure-data modules and the aliases the prelude binds them to. -/
def pureDataModules : List (String × String) :=
  [("std.int", "Int"), ("std.float", "Float"), ("std.decimal", "Decimal"), ("std.uuid", "Uuid"),
    ("std.bytes", "Bytes"), ("std.date", "Date"), ("std.timeofday", "Time"),
    ("std.error", "Error"), ("std.bool", "Bool"), ("std.text", "Text"), ("std.list", "List"),
    ("std.map", "Map"), ("std.set", "Set"), ("std.json", "Json")]

/-- The names the prelude binds to standard-library symbols, by the module it binds them in. -/
def preludeSymbols : List (StdlibModuleId × List String) :=
  [(7, ["Option", "Some", "None"]), (8, ["Result", "Ok", "Err"]),
    (17, ["JsonValue", "JNull", "JBool", "JInt", "JFloat", "JText", "JList", "JObject",
      "JObjectFields"]),
    (22, ["Quote", "QExpr", "QCol", "QLitInt", "QLitText", "QLitBool", "QLitFloat", "QLitDecimal",
      "QLitUuid", "QLitInstant", "QLitBytes", "QLitDate", "QLitTime", "QLitInterval", "QAnd",
      "QOr", "QNot", "QNotTrue", "QEq", "QNe", "QLt", "QGt", "QLe", "QGe", "QProj", "QColR",
      "QColAt", "QGroupKey", "QAggCount", "QAggSum", "QAggAvg", "QAggMin", "QAggMax",
      "QAggAvgInterval", "QLike", "QIn", "QAdd", "QSub", "QMul", "QDiv", "QMod", "QCase",
      "QExists", "Ret", "Rows", "JoinCond", "JoinResult", "LeftJoinResult", "RightJoinResult",
      "FullJoinResult", "InsertShape"]),
    -- `Ordering` has no home module; its identifier is never followed
    (0, ["Ordering", "Less", "Equal", "Greater"])]

def preludeResolutions : List ImportResolution :=
  (preludeSymbols.map fun p =>
    ⟨none, .builtinStdlib p.1, p.2.map fun name => ⟨name, .stdlibSymbol p.1 name⟩⟩) ++
  [⟨none, .builtinStdlib 0, pureDataModules.filterMap fun p =>
    (W.builtins.lookupStdlib p.1).map fun id => ⟨p.2, .moduleAlias (.builtinStdlib id)⟩⟩]

/-- The prelude as a module sees it: without the names its own imports bind. -/
def injectPrelude (imports : List ImportResolution) : List ImportResolution :=
  let userNames := (imports.flatMap ImportResolution.effectiveBindings).map
    EffectiveBinding.localName
  imports ++ (W.preludeResolutions.map fun ir =>
      ⟨ir.path, ir.target, ir.effectiveBindings.filter (!userNames.contains ·.localName)⟩).filter
    (!·.effectiveBindings.isEmpty)

/-! ## All imports of a module -/

/-- The `import` lines of a module, in order. -/
def importDecls (ast : List TopItem) : List ImportDecl :=
  ast.filterMap fun item => match item with
    | .import_ d => some d
    | _ => none

/-- What `resolve_imports` computes of a module. -/
def resolveImportsOf (m : ModuleId) : List ImportResolution × List ResolveError :=
  match W.modules[m]? with
  | none => ([], [])
  | some source =>
    let resolved := (importDecls source.ast).map (W.resolveImport source.project)
    (W.injectPrelude (resolved.map Prod.fst), resolved.flatMap Prod.snd)

def moduleImports (m : ModuleId) : List ImportResolution := (W.resolveImportsOf m).1

def findImportBinding (m : ModuleId) (name : String) : Option EffectiveBinding :=
  ((W.moduleImports m).flatMap ImportResolution.effectiveBindings).find? (·.localName = name)

end WorkspaceGraph

/-!
## Qualified names

`ridge-resolve/src/qualified.rs`: the head of a dotted name is looked up among the imports and then
in the module's own table, and the last segment in what the head names.
-/

/-! ## Constructor bindings -/

namespace WorkspaceGraph

variable (W : WorkspaceGraph)

variable (module : ModuleId)

def entryAt (symbol : SymbolId) : Option SymbolEntry :=
  (W.symbolTables[module]?).bind (·.entries[symbol]?)

def constructorBindingFor (symbol : SymbolId) : Option Binding :=
  match (W.entryAt module symbol).map SymbolEntry.kind with
  | some (.constructor owner variant _ isRecord ownerModule _) =>
    some (.constructor owner variant isRecord ownerModule)
  | _ => none

/-- A record's own constructor has the name of its type. -/
def recordBodyConstructorFor (symbol : SymbolId) : Option Binding :=
  match W.entryAt module symbol with
  | some entry =>
    match entry.kind with
    | .type _ _ => some (.constructor entry.id 0 true module)
    | _ => none
  | none => none

end WorkspaceGraph

/-! ## Resolution -/

namespace QualifiedName

variable (qn : QualifiedName)

def texts : List String := qn.segments.map Ident.text

/-- The first segment, under which the name is looked up. -/
def head : String := qn.texts.headD ""

def last : String := qn.texts.getLastD ""

end QualifiedName

namespace WorkspaceGraph

variable (W : WorkspaceGraph)

/-- What a use resolves to, and what is reported on the way. -/
abbrev Resolved := Binding × List ResolveError

def unresolvedQualified (qn : QualifiedName) : Resolved :=
  (.error, [.unresolvedQualifiedName qn.texts])

/-- An export of a standard-library module. A module that is not in the manifest reports nothing. -/
def resolveStdlibMember (id : StdlibModuleId) (name : String) : Resolved :=
  match W.builtins[id]? with
  | none => (.error, [])
  | some m =>
    if m.exports.contains name then (.stdlibSymbol id name, [])
    else (.error, [.unknownStdlibSymbol m.name name])

def resolveInTarget (target : ImportTarget) (qn : QualifiedName) : Resolved :=
  match target with
  | .builtinStdlib id => W.resolveStdlibMember id qn.last
  | .workspaceModule m =>
    match W.symbolTables[m]? with
    | none => unresolvedQualified qn
    | some table =>
      match table.lookup qn.last with
      | some entry =>
        ((W.constructorBindingFor m entry.id).getD (.importedSymbol m entry.id), [])
      | none =>
        if W.classMethodIndex.declaringModule qn.last = some m then
          match W.classMethodIndex.lookup qn.last with
          | some method => (.classMethod method.className qn.last, [])
          | none => unresolvedQualified qn
        else unresolvedQualified qn
  -- the import that made the alias has been reported already
  | .external _ _ => (.error, [])
  | .unresolved => (.error, [])

def constructorOf (table : SymbolTable) (type : SymbolId) (name : String) : Option Binding :=
  table.entries.findSome? fun entry =>
    match entry.kind with
    | .constructor owner variant _ isRecord ownerModule _ =>
      if owner = type ∧ entry.name = name then
        some (.constructor type variant isRecord ownerModule)
      else none
    | _ => none

/-- The last segment among the constructors of the head. -/
def resolveTypeActorHead (ownerModule : ModuleId) (head : SymbolId) (qn : QualifiedName) :
    Resolved :=
  match W.symbolTables[ownerModule]? with
  | none => unresolvedQualified qn
  | some table =>
    match (table.entries[head]?).map SymbolEntry.kind with
    | some (.type _ _) =>
      match constructorOf table head qn.last with
      | some binding => (binding, [])
      | none => unresolvedQualified qn
    | _ => unresolvedQualified qn

/-- A head that no import binds: a type or an actor of the module itself. -/
def resolveOwnHead (module : ModuleId) (qn : QualifiedName) : Resolved :=
  match W.symbolTables[module]? with
  | none => unresolvedQualified qn
  | some table =>
    match table.lookup qn.head with
    | none => unresolvedQualified qn
    | some sym =>
      match sym.kind with
      | .type _ _ => W.resolveTypeActorHead module sym.id qn
      | .actor => W.resolveTypeActorHead module sym.id qn
      | _ => unresolvedQualified qn

/-- `resolve_qualified_name`, and `resolve_qualified_record_constructor`, which is the same. -/
def resolveQualifiedName (module : ModuleId) (qn : QualifiedName) : Resolved :=
  if qn.segments.isEmpty then (.error, [])
  else
    match (W.findImportBinding module qn.head).map EffectiveBinding.binding with
    | some (.moduleAlias target) => W.resolveInTarget target qn
    | some (.importedSymbol owner symbol) => W.resolveTypeActorHead owner symbol qn
    | some (.stdlibSymbol id _) => W.resolveStdlibMember id qn.last
    | some _ => unresolvedQualified qn
    | none => W.resolveOwnHead module qn

end WorkspaceGraph

end Ridge
