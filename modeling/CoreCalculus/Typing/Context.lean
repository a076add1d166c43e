/-
  CoreCalculus/Typing/Context.lean
  ================================
  **What type checking starts from**: schemes for names, and declarations of data
  types.

  A constructor is looked up in two hops: to the name of the data type that owns
  it, then to the current declaration of that name.  Declaring a data type again
  replaces its declaration, and takes over the constructors it lists; a
  constructor that only the old declaration listed is then found no more.
-/
import CoreCalculus.Ty

namespace CoreCalculus

/-! ### Data types -/

/-- A constructor and the types of its arguments. -/
structure Signature where
  name : String
  args : List Ty
deriving DecidableEq, Inhabited

/-- A data type: its parameters, which may occur anywhere in the signatures, and its
    constructors. -/
structure DataType where
  name : String
  params : List TypeVar
  constructors : List Signature
deriving DecidableEq, Inhabited

namespace DataType

/-- The data type at its own parameters. -/
def selfType (d : DataType) : Ty := .adt d.name (d.params.map .var)

def constructorNames (d : DataType) : List String := d.constructors.map Signature.name

/-- The first constructor of the given name. -/
def find? (d : DataType) (name : String) : Option Signature :=
  d.constructors.find? (·.name = name)

/-- The polymorphic type of a constructor, over all parameters of the data type. -/
def constructorScheme (d : DataType) (s : Signature) : Scheme :=
  ⟨d.params, Ty.curried s.args d.selfType⟩

/-- All ids that a declaration mentions. -/
def ids (d : DataType) : List Nat :=
  d.params.map TypeVar.id ++ d.constructors.flatMap fun s => s.args.flatMap Ty.ids

/-- The largest id that a declaration mentions: of its parameters, and of the arguments of its
    constructors. -/
def maxId? (d : DataType) : Option Nat :=
  ((d.constructors.flatMap Signature.args).filterMap Ty.maxId?).foldl
    (fun m i => max m (some i)) (d.params.map TypeVar.id).max?

theorem maxId?_eq (d : DataType) : d.maxId? = d.ids.max? := by
  rw [maxId?, foldl_max_some, max?_filterMap Ty.maxId?_eq, ids, max?_append, List.flatMap_assoc]

def erase (d : DataType) : DataType :=
  ⟨d.name, d.params.map fun v => ⟨v.id, none⟩,
    d.constructors.map fun s => ⟨s.name, s.args.map Ty.erase⟩⟩

/-- Equality up to hints. -/
def alike (d e : DataType) : Bool := d.erase = e.erase

end DataType

/-! ### The registry of data types -/

/-- Declarations by name, and the data type that owns each constructor. -/
structure Registry where
  types : Table String DataType
  owners : Table String String
deriving Inhabited

namespace Registry

def empty : Registry := ⟨.empty, .empty⟩

/-- Declare a data type. -/
def register (r : Registry) (d : DataType) : Registry :=
  ⟨r.types.insert d.name d, r.owners.insertAll (d.constructorNames.map fun c => (c, d.name))⟩

/-- The current declaration that owns a constructor, and its signature there. -/
def constructor? (r : Registry) (name : String) : Option (DataType × Signature) := do
  let owner ← r.owners.get? name
  let d ← r.types.get? owner
  let s ← d.find? name
  return (d, s)

/-- All ids that the current declarations mention. -/
def ids (r : Registry) : List Nat := r.types.values.flatMap DataType.ids

/-- The largest id that the current declarations mention. -/
def maxId? (r : Registry) : Option Nat := (r.types.values.filterMap DataType.maxId?).max?

theorem maxId?_eq (r : Registry) : r.maxId? = r.ids.max? := max?_filterMap DataType.maxId?_eq _

/-- Equality up to hints. -/
def alike (r s : Registry) : Bool :=
  r.types.agrees DataType.alike s.types && r.owners.agrees (· = ·) s.owners

end Registry

/-! ### Contexts -/

structure Context where
  bindings : Table String Scheme
  registry : Registry
deriving Inhabited

namespace Context

def empty : Context := ⟨.empty, .empty⟩

def extend (c : Context) (name : String) (s : Scheme) : Context :=
  { c with bindings := c.bindings.insert name s }

/-- Bind names one after another: a later scheme of a name wins. -/
def extendAll (c : Context) (bindings : List (String × Scheme)) : Context :=
  { c with bindings := c.bindings.insertAll bindings }

def withData (c : Context) (d : DataType) : Context :=
  { c with registry := c.registry.register d }

/-- All ids that a context mentions, quantified ones included. -/
def ids (c : Context) : List Nat := c.bindings.values.flatMap Scheme.ids ++ c.registry.ids

/-- The largest id that a context mentions: of a scheme, quantified or in its type, or of a
    declaration. -/
def maxId? (c : Context) : Option Nat :=
  max (c.bindings.values.flatMap fun s => s.vars.map TypeVar.id ++ s.ty.maxId?.toList).max?
    c.registry.maxId?

/-- The parts of a context that are looked at for its largest id are all of them. -/
theorem maxId?_eq (c : Context) : c.maxId? = c.ids.max? := by
  have hscheme : ∀ s : Scheme, (s.vars.map TypeVar.id ++ s.ty.maxId?.toList).max? = s.ids.max? := by
    intro s
    rw [max?_append, Scheme.ids, max?_append, Ty.maxId?_eq]
    cases s.ty.ids.max? <;> rfl
  rw [maxId?, ids, max?_append, Registry.maxId?_eq, max?_flatMap_congr hscheme]

/-- Equality up to hints. -/
def alike (c d : Context) : Bool :=
  c.bindings.agrees Scheme.alike d.bindings && c.registry.alike d.registry

end Context

end CoreCalculus
