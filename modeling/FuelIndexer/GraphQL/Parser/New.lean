import FuelIndexer.GraphQL.Parser.Object
import FuelIndexer.GraphQL.Parser.Union

/-!
# `ParsedGraphQLSchema::new`

The definition loop and what `new` returns.  The loop visits the type
definitions of the document in order and skips schema and directive
definitions.  An object without `@entity` is skipped too; an entity object
goes to `objectArm`, an enum to `enumArm`, a union to `unionArm`, and any other
kind of type ends the run with `Err(UnsupportedTypeKind)`.

`BASE_SCHEMA` (`base.graphql`) is not under src/.  `new` reads nothing of it
but the names it declares, `scalar_names`, and the development takes those as
a parameter.

The query methods at the end are `is_possible_foreign_key` and its two
helpers, the list and union tests, the type lookups behind `graphql_type`, and
`scalar_type_for`.
-/

namespace FuelIndexer
namespace GraphQL

namespace Indices

variable (scalarNames : Finset String)

/-- One enum value: a synonym field of the enum, typed by the enum itself. -/
def enumValue (name : String) (s : Indices) (v : Name) : Indices :=
  { s with
    objectFieldMappings := insertNested s.objectFieldMappings name v.val name
    fieldTypeMappings := Function.update s.fieldTypeMappings (fieldId name v.val) (some name) }

/-- The enum arm. -/
def enumArm (t : TypeDefinition) (e : EnumType) (s : Indices) : Indices :=
  let name := t.name.val
  e.values.foldl (enumValue name) { s with
    typeDefs := insertEntry s.typeDefs name t
    virtualTypeNames := insert name s.virtualTypeNames
    enumNames := insert name s.enumNames }

/-- The enum values write only `object_field_mappings` and
`field_type_mappings`. -/
theorem enumValues_eq (name : String) : ∀ (vs : List Name) (s : Indices),
    vs.foldl (enumValue name) s = { s with
      objectFieldMappings := (vs.foldl (enumValue name) s).objectFieldMappings
      fieldTypeMappings := (vs.foldl (enumValue name) s).fieldTypeMappings }
  | [], _ => rfl
  | v :: vs, s => by
    rw [List.foldl_cons, enumValues_eq name vs]
    rfl

/-- The enum values write `object_field_mappings` only under the enum's name, -/
theorem enumValues_objectFieldMappings_of_ne {name k : String} (hk : k ≠ name) :
    ∀ (vs : List Name) (s : Indices),
      (vs.foldl (enumValue name) s).objectFieldMappings k = s.objectFieldMappings k
  | [], _ => rfl
  | v :: vs, s => by
    rw [List.foldl_cons, enumValues_objectFieldMappings_of_ne hk vs]
    simp [enumValue, insertNested_apply, hk]

/-- and `field_type_mappings` only at its field ids. -/
theorem enumValues_fieldTypeMappings_of_ne {name j : String} (hj : ∀ v, j ≠ fieldId name v) :
    ∀ (vs : List Name) (s : Indices),
      (vs.foldl (enumValue name) s).fieldTypeMappings j = s.fieldTypeMappings j
  | [], _ => rfl
  | v :: vs, s => by
    rw [List.foldl_cons, enumValues_fieldTypeMappings_of_ne hj vs]
    simp [enumValue, Function.update_noteq (hj _)]

/-- At the enum's own field ids the values write the enum's name, one value
at a time. -/
theorem enumValues_at (name n : String) : ∀ (vs : List Name) (s : Indices),
    (vs.foldl (enumValue name) s).fieldTypeMappings (fieldId name n) =
        (if n ∈ vs.map Name.val then some name else s.fieldTypeMappings (fieldId name n)) ∧
      ((vs.foldl (enumValue name) s).objectFieldMappings name).bind (fun mp => mp n) =
        if n ∈ vs.map Name.val then some name
        else (s.objectFieldMappings name).bind fun mp => mp n
  | [], _ => by simp
  | v :: vs, s => by
    rw [List.foldl_cons, (enumValues_at name n vs _).1, (enumValues_at name n vs _).2]
    by_cases hv : n = v.val
    · simp [enumValue, hv, bind_insertNested]
    · have hid : fieldId name n ≠ fieldId name v.val := fun h => hv (fieldId_left_inj.1 h)
      simp [enumValue, hv, bind_insertNested, Function.update_noteq hid]

theorem enumArm_eq (t : TypeDefinition) (e : EnumType) (s : Indices) :
    enumArm t e s = { s with
      typeDefs := insertEntry s.typeDefs t.name.val t
      virtualTypeNames := insert t.name.val s.virtualTypeNames
      enumNames := insert t.name.val s.enumNames
      objectFieldMappings := (enumArm t e s).objectFieldMappings
      fieldTypeMappings := (enumArm t e s).fieldTypeMappings } :=
  enumValues_eq _ _ _

/-- One definition of the document. -/
def definitionStep (s : Indices) : TypeSystemDefinition → Except Failure Indices
  | .type t =>
    match t.kind with
    | .object o => if t.isEntity then objectArm scalarNames t o s else pure s
    | .enum e => pure (enumArm t e s)
    | .union u => unionArm scalarNames t u s
    | _ => .error (.error .unsupportedTypeKind)
  | _ => pure s

/-- The definition loop. -/
def definitions : List TypeSystemDefinition → Indices → Except Failure Indices
  | [], s => pure s
  | d :: ds, s => do definitions ds (← definitionStep scalarNames s d)

end Indices

/-- `typedef_names_to_types`: the fold over the non-enum entries of `type_defs`,
in the order the map hands them out. -/
def typedefNamesToTypesOf (typeDefs : List (String × TypeDefinition)) : String → Option String :=
  (typeDefs.filter fun e => !e.2.kind.isEnum).foldl
    (fun acc e => Function.update acc (toLowercase e.1) (some e.1)) fun _ => none

/-- `ParsedGraphQLSchema`: the caches of the pass, the scalar names of the base
schema, and `typedef_names_to_types`.  The namespace, identifier, execution
source, AST and schema text are carried through unread and are left out. -/
structure ParsedGraphQLSchema extends Indices where
  scalarNames : Finset String
  typedefNamesToTypes : String → Option String

namespace ParsedGraphQLSchema

/-- `ParsedGraphQLSchema::new`, on the parsed document of its `schema` argument.
With no schema the loop is skipped, and the final `schema.cloned().unwrap()`
panics. -/
def new (scalarNames : Finset String) (schema : Option ServiceDocument) :
    Except Failure ParsedGraphQLSchema := do
  let s ← match schema with
    | some doc => Indices.definitions scalarNames doc.definitions Indices.empty
    | none => pure Indices.empty
  let typedefNamesToTypes := typedefNamesToTypesOf s.typeDefs
  match schema with
  | some _ => pure { s with scalarNames, typedefNamesToTypes }
  | none => .error (.panic "called `Option::unwrap()` on a `None` value")

variable (m : ParsedGraphQLSchema)

/-- `is_enum_typedef`. -/
def isEnumTypedef (name : String) : Bool := name ∈ m.enumNames

/-- `is_virtual_typedef`. -/
def isVirtualTypedef (name : String) : Bool :=
  name ∈ m.virtualTypeNames && !m.isEnumTypedef name

/-- `is_possible_foreign_key`. -/
def isPossibleForeignKey (name : String) : Bool :=
  name ∈ m.parsedTypedefNames && name ∉ m.scalarNames && !m.isEnumTypedef name &&
    !m.isVirtualTypedef name

/-- `is_list_typedef`. -/
def isListTypedef (name : String) : Bool := (m.listTypeDefs name).isSome

/-- `is_union_typedef`. -/
def isUnionTypedef (name : String) : Bool := name ∈ m.unionNames

/-- `field_type`: the type of field `name` in the field set of `cond`, or, when
`cond` has none, in that of `cond` without `[`, `]` and `!`. -/
def fieldType (cond name : String) : Option String :=
  match m.objectFieldMappings cond with
  | some fieldset => fieldset name
  | none => (m.objectFieldMappings (stripChars ['[', ']', '!'] cond)).bind fun fieldset =>
    fieldset name

/-- `typedef_type`. -/
def typedefType (name : String) : Option String := m.typedefNamesToTypes name

/-- `graphql_type`: a field's type with a parent, a type's name without. -/
def graphqlType (cond : Option String) (name : String) : Option String :=
  match cond with
  | some c => m.fieldType c name
  | none => m.typedefType name

@[simp] theorem isVirtualTypedef_eq_true (name : String) :
    m.isVirtualTypedef name = true ↔ name ∈ m.virtualTypeNames ∧ name ∉ m.enumNames := by
  simp [isVirtualTypedef, isEnumTypedef]

end ParsedGraphQLSchema

/-! ## The parser test's document -/

namespace ParserTest

/-- The field `name: ty!`, or `name: ty` when `nullable`. -/
def field (name ty : String) (nullable : Bool := false) (h₁ : isName name = true := by decide)
    (h₂ : isName ty = true := by decide) : FieldDefinition :=
  ⟨⟨name, h₁⟩, .named ⟨ty, h₂⟩ nullable, []⟩

/-- The field `name: [ty!]!`. -/
def listField (name ty : String) (h₁ : isName name = true := by decide)
    (h₂ : isName ty = true := by decide) : FieldDefinition :=
  ⟨⟨name, h₁⟩, .list (.named ⟨ty, h₂⟩ false) false, []⟩

/-- `type name @entity { fields }`, or `@entity(virtual: true)` when `virtual`. -/
def entity (name : String) (fields : List FieldDefinition) (virtual : Bool := false)
    (h : isName name = true := by decide) : TypeDefinition :=
  ⟨⟨name, h⟩, [⟨.ofLit "entity", if virtual then [(.ofLit "virtual", "true")] else []⟩],
    .object ⟨fields⟩⟩

/-- `union name = members`. -/
def union (name : String) (members : List Name) (h : isName name = true := by decide) :
    TypeDefinition :=
  ⟨⟨name, h⟩, [], .union ⟨members⟩⟩

/-- `enum name { values }`. -/
def enum (name : String) (values : List Name) (h : isName name = true := by decide) :
    TypeDefinition :=
  ⟨⟨name, h⟩, [], .enum ⟨values⟩⟩

/-- `union Storage = Safe | Vault`. -/
def storage : TypeDefinition := union "Storage" [.ofLit "Safe", .ofLit "Vault"]

/-- `type Wallet @entity { id: ID! accounts: [Account!]! }`. -/
def wallet : TypeDefinition := entity "Wallet" [field "id" "ID", listField "accounts" "Account"]

/-- `type Safe @entity { id: ID! account: [Account!]! }`. -/
def safe : TypeDefinition := entity "Safe" [field "id" "ID", listField "account" "Account"]

/-- `type Vault @entity { id: ID! label: Charfield! user: [User!]! }`. -/
def vault : TypeDefinition :=
  entity "Vault" [field "id" "ID", field "label" "Charfield", listField "user" "User"]

/-- The schema of `test_parser_caches_all_related_typedefs_when_instantiated`,
as `GraphQLSchema::new` hands it to the parser. -/
def schema : ServiceDocument := injectNativeEntitiesIntoSchema ⟨[
  .type (enum "AccountLabel" [.ofLit "PRIMARY", .ofLit "SECONDARY"]),
  .type (entity "Account" [field "id" "ID", field "address" "Address",
    field "label" "AccountLabel" true]),
  .type (entity "User" [field "id" "ID", field "account" "Account", field "username" "Charfield"]),
  .type (entity "Loser" [field "id" "ID", field "account" "Account", field "age" "UInt8"]),
  .type (entity "Metadata" [field "count" "UInt8"] true),
  .type (union "Person" [.ofLit "User", .ofLit "Loser"]),
  .type wallet,
  .type safe,
  .type vault,
  .type storage]⟩

/-- The scalars of the base schema that the test's schema names. -/
def scalarNames : Finset String := {"ID", "Address", "Charfield", "UInt8", "Bytes32"}

/-- The parser test's first checks: `new` accepts the document, and `Account`
is a possible foreign key.  Neither `Account` nor `User` is virtual. -/
theorem new_schema : ∃ m, ParsedGraphQLSchema.new scalarNames (some schema) = .ok m ∧
    m.isPossibleForeignKey "Account" = true ∧ m.isVirtualTypedef "Account" = false ∧
    m.isVirtualTypedef "User" = false := by
  have h : (match ParsedGraphQLSchema.new scalarNames (some schema) with
      | .ok m => m.isPossibleForeignKey "Account" && ! m.isVirtualTypedef "Account" &&
          ! m.isVirtualTypedef "User"
      | .error _ => false) = true := by decide
  split at h
  · simp only [Bool.and_eq_true, Bool.not_eq_true'] at h
    exact ⟨_, ‹_›, h.1.1, h.1.2, h.2⟩
  · cases h

end ParserTest

end GraphQL
end FuelIndexer
