import FuelIndexer.GraphQL.FieldTypes
import Mathlib.Data.Finset.Basic
import Mathlib.Logic.Function.Basic

/-!
# The caches `ParsedGraphQLSchema::new` fills

`new` keeps about a dozen maps as local variables and writes them, field by
field, during one pass over the definitions.  `Indices` is that set of locals,
one field each, under the source's names.  A `HashMap` or `BTreeMap` is kept
as its observable content, a function from keys to `Option`, and a `HashSet`
as a `Finset`; nothing the builder does depends on the order of a map, except
the one fold over `type_defs`, which keeps its entries as a list.

Three of the locals are never read by a modelled function and are left out:
`type_names` (read by `has_type`), `unions` (read by `get_union`), and the
parsed `ast`.

## The three update shapes

The pass writes its maps in three ways, and every write below is one of them:
a plain `insert` (`Function.update`), `entry(k).or_insert_with(Vec::new).push(x)`
(`pushEntry`), and `entry(k).or_insert_with(BTreeMap::new).insert(n, v)`
(`insertNested`).  Each gets its lookup lemma here, so the proofs about the
pass never unfold it.

## Foreign-key info

`extractForeignKeyInfo` is `extract_foreign_key_info`, with its two `expect`s
as panics.  When it returns, the column it names is `joinColumn f` and the
table is the lowercased base type (`extractForeignKeyInfo_eq_ok`).
-/

namespace FuelIndexer
namespace GraphQL

/-! ## `Except` -/

theorem Except.bind_eq_ok {ε α β : Type} {x : Except ε α} {f : α → Except ε β} {b : β} :
    x >>= f = .ok b ↔ ∃ a, x = .ok a ∧ f a = .ok b := by
  cases x <;> simp [bind, Except.bind]

theorem Except.map_eq_ok {ε α β : Type} {x : Except ε α} {f : α → β} {b : β} :
    f <$> x = .ok b ↔ ∃ a, x = .ok a ∧ f a = b := by
  cases x <;> simp [Functor.map, Except.map]

theorem Except.pure_eq_ok {ε α : Type} {a b : α} : (pure a : Except ε α) = .ok b ↔ a = b := by
  simp [pure, Except.pure]

/-! ## Foreign-key info -/

/-- The first `@join` directive of a field. -/
def joinDirective (f : FieldDefinition) : Option ConstDirective :=
  f.directives.find? fun d => d.name.val == "join"

/-- `extract_foreign_key_info`: the referenced column's type, the referenced
column and the referenced table.  With `@join`, the column is the last
argument's value, and its type is looked up in `field_type_mappings`;
without, it is `id` of type `UInt8`. -/
def extractForeignKeyInfo (f : FieldDefinition) (fieldTypeMappings : String → Option String) :
    Except Failure (String × String × String) :=
  match joinDirective f with
  | some d =>
    match d.arguments.getLast? with
    | none => .error (.panic "Expected directive info")
    | some (_, refFieldName) =>
      match fieldTypeMappings (fieldId (fieldTypeName f) refFieldName) with
      | none => .error (.panic "Field ID not found in schema")
      | some fkFieldType =>
        .ok (stripChars ['[', ']', '!'] fkFieldType, refFieldName, toLowercase (fieldTypeName f))
  | none => .ok ("UInt8", IdCol.toLowercaseStr, toLowercase (fieldTypeName f))

/-- The column a field's foreign key references: the value of the last argument
of its `@join`, or `id` when it has none. -/
def joinColumn (f : FieldDefinition) : String :=
  match joinDirective f with
  | some d => (d.arguments.getLast?.map Prod.snd).getD IdCol.toLowercaseStr
  | none => IdCol.toLowercaseStr

theorem extractForeignKeyInfo_eq_ok {f : FieldDefinition} {m : String → Option String}
    {info : String × String × String} (h : extractForeignKeyInfo f m = .ok info) :
    info.2.1 = joinColumn f ∧ info.2.2 = toLowercase (fieldTypeName f) := by
  unfold extractForeignKeyInfo at h
  unfold joinColumn
  split at h
  · split at h
    · cases h
    · rename_i hv
      split at h
      · cases h
      · cases h; simp [hv]
  · cases h
    exact ⟨rfl, rfl⟩

/-! ## Join-table metadata -/

/-- `JoinTableRelationType`. -/
inductive JoinTableRelationType where
  | parent
  | child
  deriving DecidableEq

/-- `JoinTableRelation`: one side of a many-to-many relationship. -/
structure JoinTableRelation where
  relationType : JoinTableRelationType
  typedefName : String
  columnName : String
  childPosition : Option Nat
  deriving DecidableEq

/-- `JoinTableMeta`: the two sides of a many-to-many relationship. -/
structure JoinTableMeta where
  parent : JoinTableRelation
  child : JoinTableRelation
  deriving DecidableEq

namespace JoinTableMeta

/-- `JoinTableMeta::new`.  Only the parent side carries the position. -/
def new (parentTypedefName parentColumnName childTypedefName childColumnName : String)
    (childPosition : Option Nat) : JoinTableMeta where
  parent := ⟨.parent, parentTypedefName, parentColumnName, childPosition⟩
  child := ⟨.child, childTypedefName, childColumnName, none⟩

/-- `JoinTableMeta::parent_table_name`. -/
def parentTableName (m : JoinTableMeta) : String := toLowercase m.parent.typedefName

/-- `JoinTableMeta::child_table_name`. -/
def childTableName (m : JoinTableMeta) : String := toLowercase m.child.typedefName

/-- `JoinTableMeta::table_name`. -/
def tableName (m : JoinTableMeta) : String := joinTableName m.parentTableName m.childTableName

@[simp] theorem new_parent_childPosition (a b c d : String) (p : Option Nat) :
    (new a b c d p).parent.childPosition = p := rfl

end JoinTableMeta

/-- `join_table_typedefs_name` inverts `join_table_name` on names without `_`,
and so reads a join table's name back into its two table names.  The first half
holds of all strings.  The second goes through `toLowercase`, which models
Rust's `to_lowercase` on ASCII only: it speaks of the metas the parser builds,
whose type names are GraphQL names and so ASCII, where the two agree. -/
theorem joinTableTypedefsName_inverts :
    (∀ a b : String, '_' ∉ a.data → '_' ∉ b.data →
      joinTableTypedefsName (joinTableName a b) = .ok (a, b)) ∧
    ∀ m : JoinTableMeta, '_' ∉ m.parent.typedefName.data → '_' ∉ m.child.typedefName.data →
      joinTableTypedefsName m.tableName = .ok (m.parentTableName, m.childTableName) :=
  ⟨fun _ _ => joinTableTypedefsName_joinTableName, fun _ hp hc =>
    joinTableTypedefsName_joinTableName (underscore_not_mem_toLowercase hp)
      (underscore_not_mem_toLowercase hc)⟩

/-- The join table of a wallet's accounts is read back as its two tables. -/
theorem walletAccounts_typedefsName :
    ('_' ∉ "Wallet".data ∧ '_' ∉ "Account".data) ∧
      joinTableTypedefsName (JoinTableMeta.new "Wallet" "id" "Account" "id" (some 1)).tableName =
        .ok ("wallet", "account") :=
  ⟨⟨by decide, by decide⟩,
    joinTableTypedefsName_inverts.2 (JoinTableMeta.new "Wallet" "id" "Account" "id" (some 1))
      (by decide) (by decide)⟩

/-- The entry the foreign-key block pushes for list field `f` under `parentName`
at `position`, once `extract_foreign_key_info` has returned. -/
def joinEntry (parentName : String) (position : Nat) (f : FieldDefinition) : JoinTableMeta :=
  JoinTableMeta.new (toLowercase parentName) IdCol.toLowercaseStr
    (toLowercase (fieldTypeName f)) (joinColumn f) (some position)

/-- `OrderedField`: a field with its position in its object. -/
structure OrderedField where
  field : FieldDefinition
  position : Nat

/-! ## The three update shapes -/

section Updates

variable {α : Type}

/-- `entry(k).or_insert_with(Vec::new).push(x)`. -/
def pushEntry (m : String → Option (List α)) (k : String) (x : α) : String → Option (List α) :=
  Function.update m k (some ((m k).getD [] ++ [x]))

/-- `entry(k).or_insert_with(BTreeMap::new).insert(n, v)`, on a map of maps. -/
def insertNested (m : String → Option (String → Option α)) (k n : String) (v : α) :
    String → Option (String → Option α) :=
  Function.update m k (some (Function.update ((m k).getD fun _ => none) n (some v)))

/-- `HashMap::insert` on a map kept as its list of entries. -/
def insertEntry (l : List (String × α)) (k : String) (v : α) : List (String × α) :=
  (k, v) :: l.filter fun e => e.1 ≠ k

/-- `pushEntry` for each element of `l` in turn. -/
def pushEntries (m : String → Option (List α)) (k : String) (l : List α) :
    String → Option (List α) :=
  l.foldl (fun m x => pushEntry m k x) m

theorem pushEntry_apply (m : String → Option (List α)) (k x j) :
    pushEntry m k x j = if j = k then some ((m k).getD [] ++ [x]) else m j := by
  simp [pushEntry, Function.update_apply]

@[simp] theorem pushEntries_nil (m : String → Option (List α)) (k : String) :
    pushEntries m k [] = m := rfl

theorem pushEntries_append (m : String → Option (List α)) (k : String) (l₁ l₂ : List α) :
    pushEntries m k (l₁ ++ l₂) = pushEntries (pushEntries m k l₁) k l₂ :=
  List.foldl_append _ _ _ _

theorem pushEntries_of_ne (m : String → Option (List α)) {k j : String} (l : List α)
    (h : j ≠ k) : pushEntries m k l j = m j := by
  induction l generalizing m with
  | nil => rfl
  | cons x l ih =>
    rw [show pushEntries m k (x :: l) = pushEntries (pushEntry m k x) k l from rfl, ih,
      pushEntry_apply, if_neg h]

theorem pushEntries_update_of_ne (m : String → Option (List α)) {k j : String} (v : Option (List α))
    (l : List α) (h : j ≠ k) :
    pushEntries (Function.update m j v) k l = Function.update (pushEntries m k l) j v := by
  induction l generalizing m with
  | nil => rfl
  | cons x l ih =>
    rw [show pushEntries (Function.update m j v) k (x :: l) =
        pushEntries (pushEntry (Function.update m j v) k x) k l from rfl,
      show pushEntries m k (x :: l) = pushEntries (pushEntry m k x) k l from rfl, ← ih]
    simp only [pushEntry, Function.update_noteq (Ne.symm h)]
    rw [Function.update_comm (Ne.symm h)]

theorem getD_pushEntries_self (m : String → Option (List α)) (k : String) (l : List α) :
    (pushEntries m k l k).getD [] = (m k).getD [] ++ l := by
  induction l generalizing m with
  | nil => simp
  | cons x l ih =>
    rw [show pushEntries m k (x :: l) = pushEntries (pushEntry m k x) k l from rfl, ih,
      pushEntry_apply, if_pos rfl]
    simp

theorem bind_insertNested (m : String → Option (String → Option α)) (k n : String) (v : α)
    (j n' : String) :
    (insertNested m k n v j).bind (fun mp => mp n') =
      if j = k ∧ n' = n then some v else (m j).bind fun mp => mp n' := by
  by_cases hj : j = k
  · subst hj
    by_cases hn : n' = n
    · subst hn; simp [insertNested]
    · cases hk : m j <;> simp [insertNested, hn, hk]
  · simp [insertNested, hj]

theorem insertNested_apply (m : String → Option (String → Option α)) (k n v j) :
    insertNested m k n v j =
      if j = k then some (Function.update ((m k).getD fun _ => none) n (some v)) else m j := by
  simp [insertNested, Function.update_apply]

end Updates

/-! ## The caches -/

/-- The locals of `ParsedGraphQLSchema::new` that its pass fills, under their
source names. -/
structure Indices where
  typeDefs : List (String × TypeDefinition)
  objects : String → Option ObjectType
  parsedTypedefNames : Finset String
  enumNames : Finset String
  unionNames : Finset String
  virtualTypeNames : Finset String
  objectFieldMappings : String → Option (String → Option String)
  fieldTypeMappings : String → Option String
  fieldTypeOptionality : String → Option Bool
  fieldDefs : String → Option (FieldDefinition × String)
  foreignKeyMappings : String → Option (String → Option (String × String))
  listFieldTypes : Finset String
  listTypeDefs : String → Option TypeDefinition
  joinTableMeta : String → Option (List JoinTableMeta)
  objectOrderedFields : String → Option (List OrderedField)

namespace Indices

/-- The caches before the pass: every map and set empty. -/
def empty : Indices where
  typeDefs := []
  objects := fun _ => none
  parsedTypedefNames := ∅
  enumNames := ∅
  unionNames := ∅
  virtualTypeNames := ∅
  objectFieldMappings := fun _ => none
  fieldTypeMappings := fun _ => none
  fieldTypeOptionality := fun _ => none
  fieldDefs := fun _ => none
  foreignKeyMappings := fun _ => none
  listFieldTypes := ∅
  listTypeDefs := fun _ => none
  joinTableMeta := fun _ => none
  objectOrderedFields := fun _ => none

/-- The foreign-key test the object and the union arm write out by hand
("Manual version of `ParsedGraphQLSchema::is_possible_foreign_key`"), on the
caches as they stand when the field is reached. -/
def isPossibleForeignKey (s : Indices) (scalarNames : Finset String) (ftype : String) : Bool :=
  ftype ∈ s.parsedTypedefNames && ftype ∉ scalarNames && ftype ∉ s.enumNames &&
    ftype ∉ s.virtualTypeNames

@[simp] theorem isPossibleForeignKey_eq_true {s : Indices} {scalarNames : Finset String}
    {ftype : String} :
    s.isPossibleForeignKey scalarNames ftype = true ↔ ftype ∈ s.parsedTypedefNames ∧
      ftype ∉ scalarNames ∧ ftype ∉ s.enumNames ∧ ftype ∉ s.virtualTypeNames := by
  simp [isPossibleForeignKey, and_assoc]

@[simp] theorem isPossibleForeignKey_joinTableMeta (s : Indices)
    (m : String → Option (List JoinTableMeta)) :
    ({ s with joinTableMeta := m } : Indices).isPossibleForeignKey =
      s.isPossibleForeignKey := rfl

/-- The block both arms run on a field that passes the test:
`extract_foreign_key_info`, then, for a list field, a `JoinTableMeta` pushed
under `parentName` at `position`.  The referenced column is returned with the
caches, for the object arm's `foreign_key_mappings`. -/
def joinForeignKey (s : Indices) (parentName : String) (position : Nat) (f : FieldDefinition) :
    Except Failure (Indices × String) := do
  let info ← extractForeignKeyInfo f s.fieldTypeMappings
  if isListType f then
    pure ({ s with
      joinTableMeta := pushEntry s.joinTableMeta parentName
        (JoinTableMeta.new (toLowercase parentName) IdCol.toLowercaseStr info.2.2 info.2.1
          (some position)) }, info.2.1)
  else pure (s, info.2.1)

/-- **The foreign-key block, when it returns.**  It pushes `joinEntry` for a
list field and nothing otherwise, touches no other cache, and hands back the
field's `joinColumn`. -/
theorem joinForeignKey_eq_ok {s : Indices} {parentName : String} {position : Nat}
    {f : FieldDefinition} {r : Indices × String}
    (h : s.joinForeignKey parentName position f = .ok r) :
    r = ({ s with
      joinTableMeta := pushEntries s.joinTableMeta parentName
        (if isListType f then [joinEntry parentName position f] else []) }, joinColumn f) := by
  obtain ⟨info, hinfo, h⟩ := Except.bind_eq_ok.1 h
  obtain ⟨hcol, htab⟩ := extractForeignKeyInfo_eq_ok hinfo
  split at h <;> simp only [Except.pure_eq_ok] at h <;> subst h
  · simp [*, joinEntry, pushEntries, List.foldl]
  · simp [*]

/-- The three maps keyed by a field id that both arms write for every field:
`field_type_optionality`, `field_type_mappings` and `field_defs`, the last with
the name of the type that declares the field. -/
def registerField (s : Indices) (fid : String) (f : FieldDefinition) (owner : String) :
    Indices :=
  { s with
    fieldTypeOptionality := Function.update s.fieldTypeOptionality fid (some f.ty.nullable)
    fieldTypeMappings := Function.update s.fieldTypeMappings fid (some (fieldTypeName f))
    fieldDefs := Function.update s.fieldDefs fid (some (f, owner)) }

/-! ## The last field of a name -/

/-- The last of the fields `ps` that is named `n`, with the name of the type
that declares it. -/
def lastFieldNamed (ps : List (String × FieldDefinition)) (n : String) :
    Option (String × FieldDefinition) :=
  (ps.filter fun p => p.2.name.val = n).getLast?

theorem lastFieldNamed_cons (p : String × FieldDefinition) (ps : List (String × FieldDefinition))
    (n : String) : lastFieldNamed (p :: ps) n =
      (lastFieldNamed ps n).or (if p.2.name.val = n then some p else none) := by
  rw [lastFieldNamed, ← List.singleton_append, List.filter_append, List.getLast?_append,
    lastFieldNamed, List.filter_singleton]
  by_cases hn : p.2.name.val = n <;> simp [hn]

theorem lastFieldNamed_name {ps : List (String × FieldDefinition)} {n : String}
    {p : String × FieldDefinition} (h : lastFieldNamed ps n = some p) : p.2.name.val = n := by
  simpa using (List.mem_filter.1 (List.mem_of_getLast?_eq_some h)).2

/-- The field `lastFieldNamed` picks is the last field of that name. -/
theorem lastFieldNamed_map_snd (ps : List (String × FieldDefinition)) (n : String) :
    (lastFieldNamed ps n).map Prod.snd =
      ((ps.map Prod.snd).filter fun g => g.name.val = n).getLast? := by
  rw [lastFieldNamed, ← List.getLast?_map, List.filter_map]
  rfl

/-- The fields of one type, paired with its name: the last of a name is the
type's last field of that name. -/
theorem lastFieldNamed_map_pair (T : String) (fs : List FieldDefinition) (n : String) :
    lastFieldNamed (fs.map fun f => (T, f)) n =
      (fs.filter fun g => g.name.val = n).getLast?.map fun g => (T, g) := by
  rw [lastFieldNamed, List.filter_map, List.getLast?_map]
  rfl

/-- A step writes the four field maps at the field ids of `T` from the fields
`ps`, each with the name of its declaring type: at each name `n`, the maps of
`b` hold the last field of `ps` named `n`, and what `a` held where `ps` has no
such field. -/
def WritesLast (T : String) (ps : List (String × FieldDefinition)) (a b : Indices) : Prop :=
  ∀ n, b.fieldDefs (fieldId T n) =
      ((lastFieldNamed ps n).map fun p => (p.2, p.1)).or (a.fieldDefs (fieldId T n)) ∧
    b.fieldTypeMappings (fieldId T n) =
      ((lastFieldNamed ps n).map fun p => fieldTypeName p.2).or
        (a.fieldTypeMappings (fieldId T n)) ∧
    b.fieldTypeOptionality (fieldId T n) =
      ((lastFieldNamed ps n).map fun p => p.2.ty.nullable).or
        (a.fieldTypeOptionality (fieldId T n)) ∧
    ((b.objectFieldMappings T).bind fun mp => mp n) =
      ((lastFieldNamed ps n).map fun p => fieldTypeName p.2).or
        ((a.objectFieldMappings T).bind fun mp => mp n)

end Indices

end GraphQL
end FuelIndexer
