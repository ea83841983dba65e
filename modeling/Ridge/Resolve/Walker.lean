import Ridge.Resolve.Imports

/-!
# Uses of names

`ridge-resolve/src/walker.rs`: the walk over a module, with its scopes, meets every use of a name,
and each form of use has a lookup of its own. The diagnostics about binders (`R011`, `R017`, `R027`
and assignments to immutable names) are left out.
-/

namespace Ridge

/-! ## Scopes -/

/-- `ScopeStack`, innermost scope first. -/
structure ScopeStack where
  stack : List (List (String × Nat))
  counter : Nat
  deriving DecidableEq

namespace ScopeStack

def empty : ScopeStack := ⟨[], 0⟩

variable (s : ScopeStack)

def push : ScopeStack := ⟨[] :: s.stack, s.counter⟩

def pop : ScopeStack := ⟨s.stack.tail, s.counter⟩

/-- A name the scope already has keeps its binding. -/
def addLocal (name : String) : ScopeStack :=
  match s.stack with
  | [] => ⟨[[(name, s.counter)]], s.counter + 1⟩
  | scope :: outer =>
    if (scope.lookup name).isSome then s
    else ⟨((name, s.counter) :: scope) :: outer, s.counter + 1⟩

def lookupLocal (name : String) : Option Nat :=
  s.stack.findSome? (List.lookup name)

end ScopeStack

/-! ## Forms of use -/

/-- How a name is used. -/
inductive UseForm where
  | ident (name : String) (member : Option String)
  | qualified (qn : QualifiedName)
  | ctorExpr (ctor : RecordCtor)
  | ctorPattern (qualifier : Option QualifiedName) (name : String) (hasBody : Bool)
  | typeName (name : String)
  | actorName (name : String)
  | fieldAccessor (field : String)

/-- A use with the locals that are in scope there. -/
structure Use where
  form : UseForm
  scope : ScopeStack

namespace WorkspaceGraph

variable (W : WorkspaceGraph) (module : ModuleId)

variable (name : String)

def lookupOwn : Option SymbolEntry :=
  (W.symbolTables[module]?).bind (SymbolTable.lookup · name)

/-- `push_unresolved_ident`. -/
def unresolvedIdent : Resolved := (.error, [.unresolvedIdent name])

def rejectModuleAsValue (r : Resolved) : Resolved :=
  match r.1 with
  | .moduleAlias _ => (.error, r.2 ++ [.moduleAsValue name])
  | _ => r

/-! ### Bare names -/

def resolveClassMethod : Option Resolved :=
  match W.classMethodIndex.collisions.lookup name with
  | some (first, second) => some (.error, [.ambiguousMethodName name first second])
  | none =>
    (W.classMethodIndex.lookup name).map fun method => (.classMethod method.className name, [])

/-- `resolve_ident_reaching`. -/
def resolveIdent (scope : ScopeStack) (name : String) : Resolved :=
  rejectModuleAsValue name <|
    match scope.lookupLocal name with
    | some id => (.local_ id, [])
    | none =>
      match W.lookupOwn module name with
      | some sym => (.moduleSymbol module sym.id, [])
      | none =>
        match W.findImportBinding module name with
        | some eb => (eb.binding, [])
        | none => (W.resolveClassMethod name).getD (unresolvedIdent name)

/-! ### Type names and actors -/

end WorkspaceGraph

def SymbolEntry.isType (entry : SymbolEntry) : Bool :=
  match entry.kind with
  | .type _ _ => true
  | _ => false

namespace WorkspaceGraph

variable (W : WorkspaceGraph) (module : ModuleId)

def importBindingIsType : Binding → Bool
  | .importedSymbol m s => (W.entryAt m s).any SymbolEntry.isType
  | .moduleSymbol m s => (W.entryAt m s).any SymbolEntry.isType
  | .stdlibSymbol _ _ => true
  | _ => false

def lookupTypeBinding (name : String) : Option Binding :=
  match W.lookupOwn module name with
  | some sym =>
    match sym.kind with
    | .type _ _ => some (.moduleSymbol module sym.id)
    | _ => none
  | none =>
    match W.findImportBinding module name with
    | some eb => if W.importBindingIsType eb.binding then some eb.binding else none
    | none => none

def resolveActorName (name : String) : Resolved :=
  match W.lookupOwn module name with
  | some sym =>
    match sym.kind with
    | .actor => (.actorName module sym.id, [])
    | _ => unresolvedIdent name
  | none => unresolvedIdent name

/-! ### Opaque types -/

/-- The module that declares the opaque type, where the binding builds or takes
apart one; the standard library's types have no module of the workspace. -/
def opaqueOwner : Binding → Option (Option ModuleId)
  | .constructor owner _ _ ownerModule =>
    match (W.entryAt ownerModule owner).map SymbolEntry.kind with
    | some (.type _ true) => some (some ownerModule)
    | _ => none
  | .importedSymbol m s =>
    match (W.entryAt m s).map SymbolEntry.kind with
    | some (.type _ true) => some (some m)
    | some (.constructor _ _ _ _ ownerModule true) => some (some ownerModule)
    | _ => none
  | .stdlibSymbol id name =>
    if (W.builtins[id]?).any (·.opaqueTypes.contains name) then some none else none
  | _ => none

def checkOpaqueUse (binding : Binding) (report : ResolveError) : List ResolveError :=
  match W.opaqueOwner binding with
  | none => []
  | some owner => if owner = some module then [] else [report]

/-! ### Constructors -/

/-- `imported_constructor_binding`, where there is one. -/
def importedConstructorBinding (binding : Binding) : Binding :=
  match binding with
  | .importedSymbol m s => (W.constructorBindingFor m s).getD binding
  | _ => binding

def recordBodyFallback (hasBody : Bool) (binding : Binding) : Binding :=
  match hasBody, binding with
  | true, .importedSymbol m s => (W.recordBodyConstructorFor m s).getD binding
  | _, _ => binding

/-- A bare upper-case name where an expression stands. -/
def resolveBareCtor (scope : ScopeStack) (name : String) : Resolved :=
  rejectModuleAsValue name <|
    match W.lookupOwn module name with
    | some sym =>
      match sym.kind with
      | .constructor owner variant _ isRecord ownerModule _ =>
        (.constructor owner variant isRecord ownerModule, [])
      | _ => (.moduleSymbol module sym.id, [])
    | none =>
      match W.findImportBinding module name with
      | some eb => (W.importedConstructorBinding eb.binding, [])
      | none =>
        match scope.lookupLocal name with
        | some id => (.local_ id, [])
        | none => unresolvedIdent name

def resolveCtorExpr (scope : ScopeStack) : RecordCtor → Resolved
  | .bare name =>
    let (binding, errors) := W.resolveBareCtor module scope name.text
    (binding, errors ++ W.checkOpaqueUse module binding (.opaqueConstruct name.text))
  | .qualified qn =>
    let (binding, errors) := W.resolveQualifiedName module qn
    (binding, errors ++ W.checkOpaqueUse module binding (.opaqueConstruct qn.last))

/-- A constructor of `bind_pattern`. -/
def resolveCtorPattern (qualifier : Option QualifiedName) (name : String) (hasBody : Bool) :
    Resolved :=
  match qualifier with
  | some qn =>
    let (binding, errors) := W.resolveQualifiedName module qn
    let binding := W.recordBodyFallback hasBody binding
    (binding, errors ++ W.checkOpaqueUse module binding (.opaquePattern name))
  | none =>
    match W.lookupOwn module name with
    | some sym =>
      match sym.kind with
      | .constructor owner variant _ isRecord ownerModule _ =>
        (.constructor owner variant isRecord ownerModule, [])
      | _ =>
        if hasBody then (.constructor sym.id 0 true module, [])
        else (.moduleSymbol module sym.id, [])
    | none =>
      match W.findImportBinding module name with
      | some eb =>
        let binding := W.recordBodyFallback hasBody (W.importedConstructorBinding eb.binding)
        (binding, W.checkOpaqueUse module binding (.opaquePattern name))
      | none => unresolvedIdent name

/-! ### Every form -/

/-- The binding stamped at a use, where one is, and what is reported. -/
def resolveUse (u : Use) : Option Binding × List ResolveError :=
  match u.form with
  | .ident name _ =>
    let (binding, errors) := W.resolveIdent module u.scope name
    (some binding, errors)
  | .qualified qn =>
    let (binding, errors) := W.resolveQualifiedName module qn
    (some binding, errors)
  | .ctorExpr ctor =>
    let (binding, errors) := W.resolveCtorExpr module u.scope ctor
    (some binding, errors)
  | .ctorPattern qualifier name hasBody =>
    let (binding, errors) := W.resolveCtorPattern module qualifier name hasBody
    (some binding, errors)
  | .typeName name => (W.lookupTypeBinding module name, [])
  | .actorName name =>
    let (binding, errors) := W.resolveActorName module name
    (some binding, errors)
  | .fieldAccessor field => (some (.fieldAccessor field), [])

end WorkspaceGraph

/-! ## The walk -/

/-- A walk meets uses and leaves the scopes it opened. -/
def Walk := ScopeStack → List Use × ScopeStack

namespace Walk

def skip : Walk := fun s => ([], s)

def use (form : UseForm) : Walk := fun s => ([⟨form, s⟩], s)

def bind (name : String) : Walk := fun s => ([], s.addLocal name)

def andThen (first second : Walk) : Walk := fun s =>
  let (uses, s) := first s
  let (more, s) := second s
  (uses ++ more, s)

def inScope (inner : Walk) : Walk := fun s =>
  let (uses, s) := inner s.push
  (uses, s.pop)

def all (walks : List Walk) : Walk := walks.foldr andThen skip

end Walk

/-! ### Types -/

mutual

def visitType : TypeExpr → Walk
  | .named name => .use (.typeName name)
  | .app head args => (Walk.use (.typeName head)).andThen (visitTypes args)
  | .record fields _ => visitFieldTypes fields
  | .var _ => .skip
  | .primitive _ => .skip
  | .tuple elems => visitTypes elems
  | .list elem => visitType elem
  | .fn params ret => (visitTypes params).andThen (visitType ret)
  | .paren inner => visitType inner

def visitTypes : List TypeExpr → Walk
  | [] => .skip
  | ty :: tys => (visitType ty).andThen (visitTypes tys)

def visitFieldTypes : List (String × TypeExpr) → Walk
  | [] => .skip
  | (_, ty) :: fields => (visitType ty).andThen (visitFieldTypes fields)

end

/-! ### Patterns -/

mutual

def bindPattern : Pattern → Walk
  | .wildcard _ => .skip
  | .literal _ _ => .skip
  | .listNil _ => .skip
  | .var name _ => .bind name.text
  | .constructor qualifier name none _ args _ =>
    (Walk.use (.ctorPattern qualifier name.text false)).andThen (bindPatterns args)
  | .constructor qualifier name (some fields) _ args _ =>
    ((Walk.use (.ctorPattern qualifier name.text true)).andThen (bindFieldPatterns fields)).andThen
      (bindPatterns args)
  | .tuple elems _ => bindPatterns elems
  | .cons head tail _ => (bindPattern head).andThen (bindPattern tail)
  | .bound name inner _ => (Walk.bind name.text).andThen (bindPattern inner)
  | .paren inner _ => bindPattern inner
  | .list elements _ => bindElems elements
  | .record fields _ _ => bindFieldPatterns fields
  | .or alts _ => bindPatterns alts

def bindPatterns : List Pattern → Walk
  | [] => .skip
  | p :: ps => (bindPattern p).andThen (bindPatterns ps)

def bindFieldPatterns : List (FieldPatternOf Pattern) → Walk
  | [] => .skip
  | ⟨name, none, _⟩ :: fields => (Walk.bind name.text).andThen (bindFieldPatterns fields)
  | ⟨_, some p, _⟩ :: fields => (bindPattern p).andThen (bindFieldPatterns fields)

def bindElems : List (ListPatElemOf Pattern) → Walk
  | [] => .skip
  | .elem p :: elems => (bindPattern p).andThen (bindElems elems)
  | .rest none _ :: elems => bindElems elems
  | .rest (some name) _ :: elems => (Walk.bind name.text).andThen (bindElems elems)

end

/-- A bare constructor of an `is` test may name a record. -/
def predicatePattern : Pattern → Pattern
  | .paren inner span => .paren (predicatePattern inner) span
  | .constructor qualifier name none _ [] span =>
    .constructor qualifier name (some []) true [] span
  | p => p

def addParam : Param → Walk
  | .bare name => .bind name.text
  | .annotated name _ => .bind name.text
  | .pattern pat _ => bindPattern pat
  | .patternAnnotated pat _ => bindPattern pat

/-! ### Expressions -/

/-- Where an expression stands: a message's head is the label of a handler, and no use. -/
inductive Position where
  | value
  /-- the message of `!` -/
  | message
  /-- the message of a standard-library call, which may stand in parentheses -/
  | callMessage
  deriving DecidableEq

namespace WorkspaceGraph

variable (W : WorkspaceGraph) (module : ModuleId)

/-- `callee_is_std_actor_tryask` and `callee_is_std_actor_send`. -/
def calleeIsStdActor (scope : ScopeStack) (callee : Expr) : Bool :=
  let form : Option UseForm := match callee with
    | .ident id => some (.ident id.text none)
    | .qualified qn => some (.qualified qn)
    | _ => none
  match form.bind fun form => (W.resolveUse module ⟨form, scope⟩).1 with
  | some (.stdlibSymbol id name) =>
    (name = "tryAsk" || name = "send") && (W.builtins[id]?).any (·.name = "std.actor")
  | _ => false

mutual

def visitExpr : Position → Expr → Walk
  | .message, .ident _ => .skip
  | .callMessage, .ident _ => .skip
  | .message, .call (.ident _) args _ => visitExprs args
  | .callMessage, .call (.ident _) args _ => visitExprs args
  | .callMessage, .paren inner _ => visitExpr .callMessage inner
  | _, .is subject pattern _ =>
    (visitExpr .value subject).andThen (bindPattern (predicatePattern pattern))
  | _, .literal _ => .skip
  | _, .unit _ => .skip
  | _, .ident id => .use (.ident id.text none)
  | _, .qualified qn => .use (.qualified qn)
  | _, .interp parts _ => visitInterpParts parts
  | _, .list elems _ => visitExprs elems
  | _, .tuple elems _ => visitExprs elems
  | _, .paren inner _ => visitExpr .value inner
  | _, .fieldAccessorFn field _ => .use (.fieldAccessor field.text)
  | _, .binary _ lhs rhs _ => (visitExpr .value lhs).andThen (visitExpr .value rhs)
  | _, .unary _ e _ => visitExpr .value e
  | _, .call callee args _ => fun s =>
    let isMessage := W.calleeIsStdActor module s callee
    ((visitExpr .value callee).andThen
      (if isMessage then visitMessageArgs args else visitExprs args)) s
  | _, .fieldAccess (.ident id) field _ => .use (.ident id.text (some field.text))
  | _, .fieldAccess base _ _ => visitExpr .value base
  | _, .pipe lhs rhs _ => (visitExpr .value lhs).andThen (visitExpr .value rhs)
  | _, .lambda params body _ => .inScope ((bindPatterns params).andThen (visitExpr .value body))
  | _, .innerFn ⟨_, name, params, body, _⟩ _ =>
    (Walk.bind name.text).andThen
      (.inScope ((Walk.all (params.map addParam)).andThen (visitBody body)))
  | _, .record ctor fields _ => (Walk.use (.ctorExpr ctor)).andThen (visitFieldInits fields)
  | _, .recordLit fields _ => visitFieldInits fields
  | _, .with base fields _ => (visitExpr .value base).andThen (visitFieldInits fields)
  | _, .ask handle _ args none _ => (visitExpr .value handle).andThen (visitExprs args)
  | _, .ask handle _ args (some .never) _ => (visitExpr .value handle).andThen (visitExprs args)
  | _, .ask handle _ args (some (.millis ms)) _ =>
    ((visitExpr .value handle).andThen (visitExprs args)).andThen (visitExpr .value ms)
  | _, .send handle message _ => (visitExpr .value handle).andThen (visitExpr .message message)
  | _, .spawn actor args _ => (Walk.use (.actorName actor.text)).andThen (visitExprs args)
  | _, .childSpec actor args _ => (Walk.use (.actorName actor.text)).andThen (visitExprs args)
  | _, .propagate inner _ => visitExpr .value inner
  | _, .ite cond thenBranch none _ => (visitExpr .value cond).andThen (visitExpr .value thenBranch)
  | _, .ite cond thenBranch (some elseBranch) _ =>
    ((visitExpr .value cond).andThen (visitExpr .value thenBranch)).andThen
      (visitExpr .value elseBranch)
  | _, .match scrutinee arms _ => (visitExpr .value scrutinee).andThen (visitArms arms)
  | _, .try ⟨stmts, _⟩ _ => .inScope (visitExprs stmts)
  | _, .guard cond ⟨stmts, _⟩ _ => (visitExpr .value cond).andThen (.inScope (visitExprs stmts))
  | _, .ret value _ => visitExpr .value value
  | _, .let pat value _ => (visitExpr .value value).andThen (bindPattern pat)
  | _, .var name value _ => (visitExpr .value value).andThen (.bind name.text)
  | _, .assign target value _ => (visitExpr .value target).andThen (visitExpr .value value)
  | _, .block ⟨stmts, _⟩ => .inScope (visitExprs stmts)

def visitExprs : List Expr → Walk
  | [] => .skip
  | e :: es => (visitExpr .value e).andThen (visitExprs es)

/-- The arguments of `tryAsk` and `send`: a handle, a message, the rest. -/
def visitMessageArgs : List Expr → Walk
  | [] => .skip
  | [handle] => visitExpr .value handle
  | handle :: message :: rest =>
    ((visitExpr .value handle).andThen (visitExpr .callMessage message)).andThen (visitExprs rest)

def visitInterpParts : List (InterpPartOf Expr) → Walk
  | [] => .skip
  | .text _ _ :: parts => visitInterpParts parts
  | .expr e _ :: parts => (visitExpr .value e).andThen (visitInterpParts parts)

def visitBody : BodyOf Expr → Walk
  | .expr e => visitExpr .value e
  | .ffi => .skip
  | .primitive => .skip

/-- `visit_field_init`: a field without a value is a variable of its own name. -/
def visitFieldInits : List (FieldInitOf Expr) → Walk
  | [] => .skip
  | ⟨name, none, _⟩ :: fields =>
    (Walk.use (.ident name.text none)).andThen (visitFieldInits fields)
  | ⟨_, some e, _⟩ :: fields => (visitExpr .value e).andThen (visitFieldInits fields)

/-- `visit_match_arm`, for each arm. -/
def visitArms : List (MatchArmOf Expr) → Walk
  | [] => .skip
  | ⟨pattern, none, body, _⟩ :: arms =>
    (Walk.inScope ((bindPattern pattern).andThen (visitExpr .value body))).andThen (visitArms arms)
  | ⟨pattern, some guard, body, _⟩ :: arms =>
    (Walk.inScope (((bindPattern pattern).andThen (visitExpr .value guard)).andThen
      (visitExpr .value body))).andThen (visitArms arms)

end

/-! ### Items -/

/-- A handler, an instance method or a migration: its parameters, then its body. -/
def visitHandler (h : Handler) : Walk :=
  .inScope ((Walk.all (h.params.map addParam)).andThen (W.visitExpr module .value h.body))

def visitStateDecl (d : StateDecl) : Walk :=
  (visitType d.ty).andThen (.all (d.default.toList.map (W.visitExpr module .value)))

def visitTypeDeclRefs : TopTypeBody → Walk
  | .record fields => visitTypes (fields.map FieldDecl.ty)
  | .union alternatives => .all (alternatives.map fun alt => match alt with
    | .positional _ args => visitTypes args
    | .record _ fields => visitTypes (fields.map FieldDecl.ty))
  | .alias ty => visitType ty

/-- `visit_item`. -/
def visitTopItem : TopItem → Walk
  | .import_ _ => .skip
  | .class_ _ => .skip
  | .type d migrates annotations =>
    ((visitTypeDeclRefs d.body).andThen (visitTypes annotations)).andThen
      (.all (migrates.map (W.visitHandler module)))
  | .instance_ methods => .all (methods.map (W.visitHandler module))
  | .const _ _ ty value annotations =>
    ((visitType ty).andThen (visitTypes annotations)).andThen (W.visitExpr module .value value)
  | .fn d annotations =>
    (visitTypes (d.paramTypes.filterMap id ++ d.ret.toList ++ annotations)).andThen
      (.inScope ((Walk.all (d.decl.params.map addParam)).andThen
        (W.visitBody module d.decl.body)))
  | .actor _ _ state handlers annotations =>
    (visitTypes annotations).andThen
      (.inScope ((Walk.all (state.map fun d => Walk.bind d.name)).andThen
        ((Walk.all (state.map (W.visitStateDecl module))).andThen
          (.all (handlers.map (W.visitHandler module))))))

def usesOf : List Use :=
  match W.modules[module]? with
  | none => []
  | some source =>
    (Walk.inScope (.all (source.ast.map (W.visitTopItem module))) .empty).1

/-! ## A whole workspace -/

/-- What resolution reports about a module. -/
def errorsOf : List ResolveError :=
  (((W.collected[module]?).map Collector.duplicates).getD []).map .duplicateDeclaration ++
    (W.resolveImportsOf module).2 ++ (W.usesOf module).flatMap fun u => (W.resolveUse module u).2

/-- Resolution reports no error. -/
def Accepted : Prop := ∀ m < W.modules.length, W.errorsOf m = []

end WorkspaceGraph

end Ridge
