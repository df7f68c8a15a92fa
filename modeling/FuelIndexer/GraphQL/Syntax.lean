import Mathlib.Data.List.Basic

/-!
# The schema tree the builder reads

`ParsedGraphQLSchema::new` never looks at schema text.  `parse_schema` from
`async_graphql_parser` turns the text into a `ServiceDocument`, and the builder
walks that tree once.  The parser is an outside collaborator, so this file is
the tree only, cut down to what the builder reads: names, field types,
directives with their arguments, and the kind of every top-level definition.

## Names

Every name in the tree is a GraphQL `Name`, `/[_A-Za-z][_0-9A-Za-z]*/`, because
the parser produces no other.  `Name` carries that as a field.  The builder
relies on it without saying so: `field_id` joins two names with a `.`, and the
type-string helpers strip `[`, `]` and `!` from a rendered type, and both are
only faithful because a name holds none of those characters.

## Types

`Type { base, nullable }` with `BaseType = Named | List` is folded into the two
constructors of `Ty`.  The builder sees a type only through `to_string`, which
`Ty.toString` renders the way `async_graphql_parser` does: a list prints as
`[inner]`, and a non-null type gets a trailing `!`.

## Documents

`GraphQLSchema::new` appends the `IndexMetadataEntity` fragment to the text
before it is parsed, so the document the builder walks is the user's
definitions followed by that one object (`injectNativeEntitiesIntoSchema`).
-/

namespace FuelIndexer
namespace GraphQL

/-! ## Names -/

/-- A character that may start a GraphQL name. -/
def isNameStart (c : Char) : Bool := c.isAlpha || c == '_'

/-- A character that may continue a GraphQL name. -/
def isNameContinue (c : Char) : Bool := c.isAlphanum || c == '_'

/-- The GraphQL `Name` production. -/
def isName (s : String) : Bool :=
  match s.data with
  | [] => false
  | c :: cs => isNameStart c && cs.all isNameContinue

/-- A name as `parse_schema` hands it over. -/
@[ext] structure Name where
  val : String
  isName_val : isName val = true
  deriving DecidableEq

theorem isNameContinue_of_isNameStart {c : Char} (h : isNameStart c = true) :
    isNameContinue c = true := by
  simp only [isNameStart, isNameContinue, Bool.or_eq_true, Char.isAlphanum] at *
  tauto

/-- Every character of a name is a letter, a digit or `_`. -/
theorem Name.isNameContinue_of_mem (n : Name) {c : Char} (h : c ∈ n.val.data) :
    isNameContinue c = true := by
  have hn := n.isName_val
  unfold isName at hn
  split at hn
  · cases hn
  · rename_i d cs hd
    rw [hd, List.mem_cons] at h
    simp only [Bool.and_eq_true, List.all_eq_true] at hn
    rcases h with rfl | h
    · exact isNameContinue_of_isNameStart hn.1
    · exact hn.2 c h

/-- No name contains `c` when `c` is neither a letter, a digit nor `_`: this is
how the builder's separators `.`, `[`, `]` and `!` stay out of names. -/
theorem Name.not_mem {c : Char} (hc : isNameContinue c = false) (n : Name) :
    c ∉ n.val.data := fun h => by
  rw [n.isNameContinue_of_mem h] at hc
  cases hc

/-! ## Types -/

/-- `async_graphql_parser::types::Type`: a named or a list base type, with its
nullability. -/
inductive Ty where
  | named (name : Name) (nullable : Bool)
  | list (ty : Ty) (nullable : Bool)
  deriving DecidableEq

namespace Ty

/-- `Type::nullable`. -/
def nullable : Ty → Bool
  | named _ b => b
  | list _ b => b

/-- The named type at the bottom of the list wrappers. -/
def baseName : Ty → Name
  | named n _ => n
  | list t _ => t.baseName

/-- The number of list wrappers. -/
def listDepth : Ty → Nat
  | named _ _ => 0
  | list t _ => t.listDepth + 1

/-- The `!` a non-null type ends with. -/
def bang (nullable : Bool) : String := if nullable then "" else "!"

/-- `impl Display for Type`. -/
def toString : Ty → String
  | named n b => n.val ++ bang b
  | list t b => "[" ++ t.toString ++ "]" ++ bang b

end Ty

/-- A type over a base name that may be any string, as
`async_graphql_parser::types::Type` holds one when it is built by hand.  The
parser builds only `Ty`, over a `Name`; the type-string helpers read the
rendering, and it is defined for any base. -/
inductive RawTy where
  | named (name : String) (nullable : Bool)
  | list (ty : RawTy) (nullable : Bool)
  deriving DecidableEq

namespace RawTy

/-- The named type at the bottom of the list wrappers. -/
def baseName : RawTy → String
  | named n _ => n
  | list t _ => t.baseName

/-- The number of list wrappers. -/
def listDepth : RawTy → Nat
  | named _ _ => 0
  | list t _ => t.listDepth + 1

/-- `impl Display for Type`, as for `Ty`. -/
def toString : RawTy → String
  | named n b => n ++ Ty.bang b
  | list t b => "[" ++ t.toString ++ "]" ++ Ty.bang b

end RawTy

/-- The parser's types among all types. -/
def Ty.toRaw : Ty → RawTy
  | named n b => .named n.val b
  | list t b => .list t.toRaw b

@[simp] theorem Ty.toString_toRaw (t : Ty) : t.toRaw.toString = t.toString := by
  induction t <;> simp [toRaw, RawTy.toString, Ty.toString, *]

@[simp] theorem Ty.baseName_toRaw (t : Ty) : t.toRaw.baseName = t.baseName.val := by
  induction t <;> simp [toRaw, RawTy.baseName, Ty.baseName, *]

@[simp] theorem Ty.listDepth_toRaw (t : Ty) : t.toRaw.listDepth = t.listDepth := by
  induction t <;> simp [toRaw, RawTy.listDepth, Ty.listDepth, *]

/-! ## Definitions -/

/-- `ConstDirective`: a name and its arguments.  An argument's value is kept as
the text its `to_string` gives, which is all the builder reads of it. -/
structure ConstDirective where
  name : Name
  arguments : List (Name × String)
  deriving DecidableEq

/-- `FieldDefinition`, without the description and the field arguments, which
the builder does not read. -/
structure FieldDefinition where
  name : Name
  ty : Ty
  directives : List ConstDirective
  deriving DecidableEq

/-- `ObjectType`; the interfaces it implements are not read. -/
structure ObjectType where
  fields : List FieldDefinition
  deriving DecidableEq

/-- `UnionType`. -/
structure UnionType where
  members : List Name
  deriving DecidableEq

/-- `EnumType`, with each `EnumValueDefinition` cut down to its value. -/
structure EnumType where
  values : List Name
  deriving DecidableEq

/-- `TypeKind`.  The builder rejects scalars, interfaces and input objects
without looking inside them. -/
inductive TypeKind where
  | scalar
  | object (o : ObjectType)
  | interface
  | union (u : UnionType)
  | enum (e : EnumType)
  | inputObject
  deriving DecidableEq

/-- `TypeDefinition`. -/
structure TypeDefinition where
  name : Name
  directives : List ConstDirective
  kind : TypeKind
  deriving DecidableEq

/-- `TypeSystemDefinition`.  The builder skips schema and directive
definitions, so they carry nothing here. -/
inductive TypeSystemDefinition where
  | schema
  | type (t : TypeDefinition)
  | directive
  deriving DecidableEq

/-- `ServiceDocument`. -/
structure ServiceDocument where
  definitions : List TypeSystemDefinition
  deriving DecidableEq

/-- The type definition a top-level definition declares, if it is one. -/
def TypeSystemDefinition.typeDefinition? : TypeSystemDefinition → Option TypeDefinition
  | .type t => some t
  | _ => none

/-- The type definitions among top-level definitions, in order. -/
def declaredTypes (ds : List TypeSystemDefinition) : List TypeDefinition :=
  ds.filterMap TypeSystemDefinition.typeDefinition?

/-- The names those type definitions declare, in order. -/
def declaredNames (ds : List TypeSystemDefinition) : List String :=
  (declaredTypes ds).map fun t => t.name.val

/-- The type definitions of a document, in order. -/
def ServiceDocument.typeDefinitions (d : ServiceDocument) : List TypeDefinition :=
  declaredTypes d.definitions

@[simp] theorem declaredTypes_nil : declaredTypes [] = [] := rfl

@[simp] theorem declaredTypes_cons (d : TypeSystemDefinition) (ds : List TypeSystemDefinition) :
    declaredTypes (d :: ds) = d.typeDefinition?.toList ++ declaredTypes ds := by
  cases d <;> rfl

@[simp] theorem declaredTypes_append (ds₁ ds₂ : List TypeSystemDefinition) :
    declaredTypes (ds₁ ++ ds₂) = declaredTypes ds₁ ++ declaredTypes ds₂ :=
  List.filterMap_append _ _ _

/-- A schema or directive definition declares no type. -/
theorem declaredTypes_append_of_none {ds : List TypeSystemDefinition} {d : TypeSystemDefinition}
    (hd : d.typeDefinition? = none) : declaredTypes (ds ++ [d]) = declaredTypes ds := by
  simp [hd]

@[simp] theorem declaredNames_append (ds₁ ds₂ : List TypeSystemDefinition) :
    declaredNames (ds₁ ++ ds₂) = declaredNames ds₁ ++ declaredNames ds₂ := by
  simp [declaredNames]

@[simp] theorem typeDefinition?_type (t : TypeDefinition) :
    (TypeSystemDefinition.type t).typeDefinition? = some t := rfl

/-! ## Kinds -/

/-- Whether a type kind is `TypeKind::Enum`. -/
def TypeKind.isEnum : TypeKind → Bool
  | .enum _ => true
  | _ => false

/-- Whether a type kind is `TypeKind::Union`. -/
def TypeKind.isUnion : TypeKind → Bool
  | .union _ => true
  | _ => false

/-- Whether some directive of `t` is `@entity`. -/
def TypeDefinition.isEntity (t : TypeDefinition) : Bool :=
  t.directives.any fun d => d.name.val == "entity"

/-- The body of `t`, when `t` is an object with `@entity`. -/
def TypeDefinition.entityObject? (t : TypeDefinition) : Option ObjectType :=
  match t.kind with
  | .object o => if t.isEntity then some o else none
  | _ => none

/-- The definitions whose names `new` records in `parsed_typedef_names`:
entity objects and unions. -/
def TypeDefinition.isParsedType (t : TypeDefinition) : Bool :=
  t.entityObject?.isSome || t.kind.isUnion

theorem TypeDefinition.isEnum_eq_false_of_isParsedType {t : TypeDefinition}
    (h : t.isParsedType = true) : t.kind.isEnum = false := by
  unfold isParsedType entityObject? at h
  cases hk : t.kind <;> simp_all [TypeKind.isEnum, TypeKind.isUnion]

/-- The names of the members of a union; other kinds have none. -/
def TypeDefinition.memberNames (t : TypeDefinition) : List String :=
  match t.kind with
  | .union u => u.members.map Name.val
  | _ => []

/-! ## The injected fragment -/

/-- Builds a name from a literal, with its grammar checked by `decide`. -/
def Name.ofLit (s : String) (h : isName s = true := by decide) : Name := ⟨s, h⟩

/-- `IndexMetadata::schema_fragment`, parsed:
`type IndexMetadataEntity @entity { id: ID! time: UInt8! block_height: UInt8!
block_id: Bytes32! }`. -/
def indexMetadataEntity : TypeDefinition where
  name := .ofLit "IndexMetadataEntity"
  directives := [⟨.ofLit "entity", []⟩]
  kind := .object ⟨[
    ⟨.ofLit "id", .named (.ofLit "ID") false, []⟩,
    ⟨.ofLit "time", .named (.ofLit "UInt8") false, []⟩,
    ⟨.ofLit "block_height", .named (.ofLit "UInt8") false, []⟩,
    ⟨.ofLit "block_id", .named (.ofLit "Bytes32") false, []⟩]⟩

/-- `inject_native_entities_into_schema`, on the parsed document: the user's
definitions, then the `IndexMetadataEntity` object. -/
def injectNativeEntitiesIntoSchema (d : ServiceDocument) : ServiceDocument :=
  ⟨d.definitions ++ [.type indexMetadataEntity]⟩

end GraphQL
end FuelIndexer
