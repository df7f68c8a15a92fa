import FuelIndexer.GraphQL.Parser.New

/-!
# What the pass reads of a field's type

The parser reads a field's type in four places only: `field_type_name` (the
base name), `is_list_type` (a list of exactly one level), `list_field_type_name`
(on list fields only, where it is the base name in brackets) and the type's
nullability.  So any change of field types that keeps the base name, the
nullability and `is_list_type` is invisible to it: the pass on the changed
document is the pass on the original, with the stored fields changed the same
way.  In particular nothing checks the list depth of a field: a field of type
`[[Account!]!]!` is handled as one of type `Account!`, with no join table and
no entry in the list caches.

## Retypings

A `Retyping` is a map on types with proofs that it keeps the base name, the
nullability and whether the type is a one-level list.  `Indices.retype` applies
one to every field the caches store: in `type_defs`, `objects`, `field_defs`,
`list_type_defs` and `object_ordered_fields`.

## Results

* one commutation lemma per operation of the pass: each of them, on retyped
  caches and retyped arguments, gives the retyped result, or fails the same way;
* `definitionStep_retype` by cases on the definition, and
  `definitions_retype` by induction on the document;
* `new_retype`: `new` on a retyped document is the retyped result of `new`,
  errors and panics included.  With `Retyping.nestedAsBase`, `new` accepts a
  document exactly when it accepts it with every nested list type replaced by
  its base type.
-/

namespace FuelIndexer
namespace GraphQL

/-- A change of field types that keeps what the pass reads of a type: its
base name, its nullability, and whether it is a list of exactly one level. -/
structure Retyping where
  toFun : Ty → Ty
  baseName_eq : ∀ ty, (toFun ty).baseName = ty.baseName
  nullable_eq : ∀ ty, (toFun ty).nullable = ty.nullable
  listDepth_eq_one : ∀ ty, (toFun ty).listDepth = 1 ↔ ty.listDepth = 1

namespace Retyping

/-- A nested list is replaced by its base type, with the outer nullability:
`[[Account!]!]!` becomes `Account!`.  Other types are kept. -/
def nestedAsBase : Retyping where
  toFun ty := if 2 ≤ ty.listDepth then .named ty.baseName ty.nullable else ty
  baseName_eq ty := by dsimp only; split <;> rfl
  nullable_eq ty := by dsimp only; split <;> rfl
  listDepth_eq_one ty := by
    dsimp only
    split
    · simp only [Ty.listDepth]
      omega
    · rfl

end Retyping

variable (r : Retyping)

/-! ## Retyped syntax -/

/-- The field with its type changed by `r`. -/
def FieldDefinition.retype (f : FieldDefinition) : FieldDefinition :=
  { f with ty := r.toFun f.ty }

/-- The object with the types of its fields changed by `r`. -/
def ObjectType.retype (o : ObjectType) : ObjectType :=
  ⟨o.fields.map (FieldDefinition.retype r)⟩

/-- The kind with the types of an object's fields changed by `r`. -/
def TypeKind.retype : TypeKind → TypeKind
  | .object o => .object (o.retype r)
  | k => k

/-- The type definition with the types of its fields changed by `r`. -/
def TypeDefinition.retype (t : TypeDefinition) : TypeDefinition :=
  { t with kind := t.kind.retype r }

/-- The definition with the types of its fields changed by `r`. -/
def TypeSystemDefinition.retype : TypeSystemDefinition → TypeSystemDefinition
  | .type t => .type (t.retype r)
  | d => d

/-- The document with the types of its fields changed by `r`. -/
def ServiceDocument.retype (doc : ServiceDocument) : ServiceDocument :=
  ⟨doc.definitions.map (TypeSystemDefinition.retype r)⟩

/-- The ordered field with its type changed by `r`. -/
def OrderedField.retype (e : OrderedField) : OrderedField :=
  ⟨e.field.retype r, e.position⟩

@[simp] theorem FieldDefinition.retype_name (f : FieldDefinition) :
    (f.retype r).name = f.name := rfl

@[simp] theorem FieldDefinition.retype_directives (f : FieldDefinition) :
    (f.retype r).directives = f.directives := rfl

@[simp] theorem ObjectType.retype_fields (o : ObjectType) :
    (o.retype r).fields = o.fields.map (FieldDefinition.retype r) := rfl

@[simp] theorem TypeDefinition.retype_name (t : TypeDefinition) :
    (t.retype r).name = t.name := rfl

@[simp] theorem TypeDefinition.retype_kind (t : TypeDefinition) :
    (t.retype r).kind = t.kind.retype r := rfl

@[simp] theorem TypeDefinition.isVirtual_retype (t : TypeDefinition) :
    (t.retype r).isVirtual = t.isVirtual := rfl

@[simp] theorem OrderedField.retype_mk (f : FieldDefinition) (i : Nat) :
    OrderedField.retype r ⟨f, i⟩ = ⟨f.retype r, i⟩ := rfl

@[simp] theorem TypeKind.isEnum_retype (k : TypeKind) : (k.retype r).isEnum = k.isEnum := by
  cases k <;> rfl

/-! ## What the pass reads of a retyped field -/

@[simp] theorem fieldTypeName_retype (f : FieldDefinition) :
    fieldTypeName (f.retype r) = fieldTypeName f := by
  rw [fieldTypeName_eq_baseName, fieldTypeName_eq_baseName]
  exact congrArg Name.val (r.baseName_eq f.ty)

@[simp] theorem isListType_retype (f : FieldDefinition) :
    isListType (f.retype r) = isListType f :=
  Bool.eq_iff_iff.2 (by
    rw [isListType_eq_true_iff, isListType_eq_true_iff]
    exact r.listDepth_eq_one _)

@[simp] theorem nullable_retype (f : FieldDefinition) :
    (f.retype r).ty.nullable = f.ty.nullable :=
  r.nullable_eq f.ty

/-- On a list field, the list type's name is kept: it is the base name in one
pair of brackets. -/
theorem listFieldTypeName_retype {f : FieldDefinition} (h : isListType f = true) :
    listFieldTypeName (f.retype r) = listFieldTypeName f := by
  have h' := (isListType_retype r f).trans h
  rw [isListType_eq_true_iff] at h h'
  rw [listFieldTypeName_eq, listFieldTypeName_eq, h, h']
  exact congrArg (fun N : Name => String.mk (['['] ++ N.val.data ++ [']'])) (r.baseName_eq f.ty)

@[simp] theorem joinDirective_retype (f : FieldDefinition) :
    joinDirective (f.retype r) = joinDirective f := rfl

@[simp] theorem extractForeignKeyInfo_retype (f : FieldDefinition) (m : String → Option String) :
    extractForeignKeyInfo (f.retype r) m = extractForeignKeyInfo f m := by
  simp only [extractForeignKeyInfo, joinDirective_retype, fieldTypeName_retype]

/-! ## Retyped caches -/

/-- The caches with every field they store retyped by `r`. -/
def Indices.retype (s : Indices) : Indices :=
  { s with
    typeDefs := s.typeDefs.map fun e => (e.1, e.2.retype r)
    objects := Option.map (ObjectType.retype r) ∘ s.objects
    fieldDefs := Option.map (fun p => (p.1.retype r, p.2)) ∘ s.fieldDefs
    listTypeDefs := Option.map (TypeDefinition.retype r) ∘ s.listTypeDefs
    objectOrderedFields := Option.map (List.map (OrderedField.retype r)) ∘ s.objectOrderedFields }

/-- The union arm's locals with the caches retyped by `r`. -/
def UnionPass.retype (p : UnionPass) : UnionPass :=
  ⟨p.caches.retype r, p.processedFields, p.childPosition⟩

/-- The model with every field it stores retyped by `r`. -/
def ParsedGraphQLSchema.retype (m : ParsedGraphQLSchema) : ParsedGraphQLSchema :=
  { m with toIndices := m.toIndices.retype r }

@[simp] theorem Indices.empty_retype : Indices.empty.retype r = Indices.empty := rfl

@[simp] theorem Indices.retype_fieldTypeMappings (s : Indices) :
    (s.retype r).fieldTypeMappings = s.fieldTypeMappings := rfl

@[simp] theorem Indices.retype_objects (s : Indices) (k : String) :
    (s.retype r).objects k = (s.objects k).map (ObjectType.retype r) := rfl

@[simp] theorem Indices.retype_virtualTypeNames (s : Indices) :
    (s.retype r).virtualTypeNames = s.virtualTypeNames := rfl

@[simp] theorem UnionPass.retype_caches (p : UnionPass) : (p.retype r).caches = p.caches.retype r :=
  rfl

@[simp] theorem UnionPass.retype_processedFields (p : UnionPass) :
    (p.retype r).processedFields = p.processedFields := rfl

@[simp] theorem UnionPass.retype_childPosition (p : UnionPass) :
    (p.retype r).childPosition = p.childPosition := rfl

@[simp] theorem Indices.isPossibleForeignKey_retype (s : Indices) :
    (s.retype r).isPossibleForeignKey = s.isPossibleForeignKey := rfl

/-! ## The update shapes under a retyping -/

section Updates

variable {α β : Type} (g : α → β)

theorem pushEntry_map (m : String → Option (List α)) (k : String) (x : α) :
    Option.map (List.map g) ∘ pushEntry m k x =
      pushEntry (Option.map (List.map g) ∘ m) k (g x) := by
  rw [pushEntry, pushEntry, Function.comp_update]
  cases h : m k <;> simp [h]

theorem insertEntry_map (l : List (String × α)) (k : String) (v : α) :
    (insertEntry l k v).map (fun e => (e.1, g e.2)) =
      insertEntry (l.map fun e => (e.1, g e.2)) k (g v) := by
  simp [insertEntry, List.filter_map, Function.comp_def]

end Updates

namespace Indices

variable (scalarNames : Finset String)

/-! ## The object arm -/

theorem registerField_retype (s : Indices) (fid : String) (f : FieldDefinition) (owner : String) :
    (s.retype r).registerField fid (f.retype r) owner = (s.registerField fid f owner).retype r := by
  simp only [registerField, Indices.retype, Function.comp_update, fieldTypeName_retype,
    nullable_retype, Option.map_some']

theorem objectFieldRecord_retype (t : TypeDefinition) (i : Nat) (f : FieldDefinition)
    (s : Indices) :
    objectFieldRecord (t.retype r) i (f.retype r) (s.retype r) =
      (objectFieldRecord t i f s).retype r := by
  rw [objectFieldRecord_eq, objectFieldRecord_eq]
  cases hl : isListType f
  · simp [Indices.retype, hl, pushEntry_map]
  · simp [Indices.retype, hl, pushEntry_map, listFieldTypeName_retype r hl, Function.comp_update]

theorem joinForeignKey_retype (s : Indices) (parentName : String) (position : Nat)
    (f : FieldDefinition) :
    (s.retype r).joinForeignKey parentName position (f.retype r) =
      (fun q => (q.1.retype r, q.2)) <$> s.joinForeignKey parentName position f := by
  simp only [joinForeignKey, extractForeignKeyInfo_retype, isListType_retype,
    retype_fieldTypeMappings]
  cases extractForeignKeyInfo f s.fieldTypeMappings with
  | error => rfl
  | ok info => cases isListType f <;> rfl

theorem objectFieldKey_retype (t : TypeDefinition) (i : Nat) (f : FieldDefinition)
    (s : Indices) :
    objectFieldKey scalarNames (t.retype r) i (f.retype r) (s.retype r) =
      Indices.retype r <$> objectFieldKey scalarNames t i f s := by
  simp only [objectFieldKey, isPossibleForeignKey_retype, fieldTypeName_retype,
    TypeDefinition.retype_name, FieldDefinition.retype_name, joinForeignKey_retype]
  split
  · cases s.joinForeignKey t.name.val i f <;> rfl
  · rfl

theorem objectFieldRegister_retype (t : TypeDefinition) (f : FieldDefinition) (s : Indices) :
    objectFieldRegister (t.retype r) (f.retype r) (s.retype r) =
      (objectFieldRegister t f s).retype r := by
  simp only [objectFieldRegister, TypeDefinition.retype_name, FieldDefinition.retype_name,
    registerField_retype]
  rfl

theorem objectField_retype (t : TypeDefinition) (i : Nat) (f : FieldDefinition) (s : Indices)
    (fm : String → Option String) :
    objectField scalarNames (t.retype r) i (f.retype r) (s.retype r) fm =
      (fun q => (q.1.retype r, q.2)) <$> objectField scalarNames t i f s fm := by
  simp only [objectField, objectFieldRecord_retype, objectFieldKey_retype,
    FieldDefinition.retype_name, fieldTypeName_retype]
  cases objectFieldKey scalarNames t i f (objectFieldRecord t i f s) with
  | error => rfl
  | ok c => exact congrArg (fun x => Except.ok (x, _)) (objectFieldRegister_retype r t f c)

theorem objectFields_retype (t : TypeDefinition) :
    ∀ (i : Nat) (fs : List FieldDefinition) (s : Indices) (fm : String → Option String),
      objectFields scalarNames (t.retype r) i (fs.map (FieldDefinition.retype r)) (s.retype r) fm =
        (fun q => (q.1.retype r, q.2)) <$> objectFields scalarNames t i fs s fm
  | _, [], _, _ => rfl
  | i, f :: fs, s, fm => by
    simp only [objectFields, List.map_cons, objectField_retype]
    cases objectField scalarNames t i f s fm with
    | error => rfl
    | ok q => exact objectFields_retype t (i + 1) fs q.1 q.2

theorem registerObject_retype (t : TypeDefinition) (o : ObjectType) (s : Indices) :
    registerObject (t.retype r) (o.retype r) (s.retype r) = (registerObject t o s).retype r := by
  simp only [registerObject, Indices.retype, TypeDefinition.retype_name, Function.comp_update,
    Option.map_some', insertEntry_map]

/-- **The object arm on retyped caches** gives the retyped caches. -/
theorem objectArm_retype (t : TypeDefinition) (o : ObjectType) (s : Indices) :
    objectArm scalarNames (t.retype r) (o.retype r) (s.retype r) =
      Indices.retype r <$> objectArm scalarNames t o s := by
  simp only [objectArm, registerObject_retype, ObjectType.retype_fields, objectFields_retype,
    TypeDefinition.retype_name]
  cases objectFields scalarNames t 0 o.fields (registerObject t o s) (fun _ => none) <;> rfl

/-! ## The enum arm -/

theorem enumValues_retype (name : String) : ∀ (vs : List Name) (s : Indices),
    vs.foldl (enumValue name) (s.retype r) = (vs.foldl (enumValue name) s).retype r
  | [], _ => rfl
  | v :: vs, s => enumValues_retype name vs (enumValue name s v)

/-- The enum arm on retyped caches gives the retyped caches. -/
theorem enumArm_retype {t : TypeDefinition} (ht : t.retype r = t) (e : EnumType) (s : Indices) :
    enumArm t e (s.retype r) = (enumArm t e s).retype r := by
  rw [enumArm, enumArm, ← enumValues_retype]
  congr 1
  simp only [Indices.retype, insertEntry_map, ht]

/-! ## The union arm -/

theorem unionFieldKey_retype (U : String) (c : Indices) (position : Nat) (f : FieldDefinition) :
    unionFieldKey scalarNames U (c.retype r) position (f.retype r) =
      Indices.retype r <$> unionFieldKey scalarNames U c position f := by
  simp only [unionFieldKey, isPossibleForeignKey_retype, fieldTypeName_retype,
    joinForeignKey_retype]
  split
  · cases c.joinForeignKey U position f <;> rfl
  · rfl

theorem unionField_retype (U : String) (p : UnionPass) (f : FieldDefinition) :
    unionField scalarNames U (p.retype r) (f.retype r) =
      UnionPass.retype r <$> unionField scalarNames U p f := by
  simp only [unionField, FieldDefinition.retype_name, UnionPass.retype_processedFields,
    UnionPass.retype_caches, UnionPass.retype_childPosition, unionFieldKey_retype]
  split
  · rfl
  · cases unionFieldKey scalarNames U p.caches p.childPosition f <;> rfl

theorem unionFields_retype (U : String) : ∀ (fs : List FieldDefinition) (p : UnionPass),
    unionFields scalarNames U (fs.map (FieldDefinition.retype r)) (p.retype r) =
      UnionPass.retype r <$> unionFields scalarNames U fs p
  | [], _ => rfl
  | f :: fs, p => by
    simp only [unionFields, List.map_cons, unionField_retype]
    cases unionField scalarNames U p f with
    | error => rfl
    | ok q => exact unionFields_retype U fs q

theorem unionMember_retype (U : String) (p : UnionPass) (M : Name) :
    unionMember scalarNames U (p.retype r) M =
      UnionPass.retype r <$> unionMember scalarNames U p M := by
  rw [unionMember_eq, unionMember_eq, UnionPass.retype_caches, retype_objects]
  cases p.caches.objects M.val with
  | none => rfl
  | some o =>
    exact unionFields_retype r scalarNames U o.fields
      { p with caches := { p.caches with
        joinTableMeta := Function.update p.caches.joinTableMeta M.val none } }

theorem unionMembers_retype (U : String) : ∀ (ms : List Name) (p : UnionPass),
    unionMembers scalarNames U ms (p.retype r) =
      UnionPass.retype r <$> unionMembers scalarNames U ms p
  | [], _ => rfl
  | M :: ms, p => by
    simp only [unionMembers, unionMember_retype]
    cases unionMember scalarNames U p M with
    | error => rfl
    | ok q => exact unionMembers_retype U ms q

theorem unionFieldCopy_retype (U M : String) (s : Indices) (f : FieldDefinition) :
    unionFieldCopy U M (s.retype r) (f.retype r) = (unionFieldCopy U M s f).retype r := by
  simp only [unionFieldCopy, registerField_retype, FieldDefinition.retype_name,
    fieldTypeName_retype]
  rfl

theorem unionMemberCopy_retype (U : String) (s : Indices) (M : Name) :
    unionMemberCopy U (s.retype r) M = Indices.retype r <$> unionMemberCopy U s M := by
  simp only [unionMemberCopy, retype_objects]
  cases s.objects M.val with
  | none => rfl
  | some o =>
    show pure (((o.fields.map (FieldDefinition.retype r))).foldl _ (s.retype r)) = pure _
    rw [List.foldl_map]
    exact congrArg pure (List.foldl_hom _ _ _ _ _ fun s f => unionFieldCopy_retype r U M.val s f)

theorem unionMemberCopies_retype (U : String) : ∀ (ms : List Name) (s : Indices),
    unionMemberCopies U ms (s.retype r) = Indices.retype r <$> unionMemberCopies U ms s
  | [], _ => rfl
  | M :: ms, s => by
    simp only [unionMemberCopies, unionMemberCopy_retype]
    cases unionMemberCopy U s M with
    | error => rfl
    | ok b => exact unionMemberCopies_retype U ms b

theorem registerUnion_retype {t : TypeDefinition} (ht : t.retype r = t) (s : Indices) :
    registerUnion t (s.retype r) = (registerUnion t s).retype r := by
  simp only [registerUnion, Indices.retype, insertEntry_map, ht]

/-- **The union arm on retyped caches** gives the retyped caches, or fails the
same way. -/
theorem unionArm_retype {t : TypeDefinition} (ht : t.retype r = t) (u : UnionType) (s : Indices) :
    unionArm scalarNames t u (s.retype r) = Indices.retype r <$> unionArm scalarNames t u s := by
  simp only [unionArm, registerUnion_retype r ht, retype_virtualTypeNames]
  cases checkDerivedUnionIsWellFormed t (registerUnion t s).virtualTypeNames with
  | error => rfl
  | ok v =>
    let P : UnionPass := ⟨{ registerUnion t s with virtualTypeNames := v }, ∅, 0⟩
    show (unionMembers scalarNames t.name.val u.members (P.retype r) >>= fun p =>
        unionMemberCopies t.name.val u.members p.caches) =
      Indices.retype r <$> (unionMembers scalarNames t.name.val u.members P >>= fun p =>
        unionMemberCopies t.name.val u.members p.caches)
    rw [unionMembers_retype]
    cases unionMembers scalarNames t.name.val u.members P with
    | error => rfl
    | ok p => exact unionMemberCopies_retype r t.name.val u.members p.caches

/-! ## The loop -/

/-- **A step on retyped caches and a retyped definition** gives the retyped
caches, or fails the same way. -/
theorem definitionStep_retype (s : Indices) (d : TypeSystemDefinition) :
    definitionStep scalarNames (s.retype r) (d.retype r) =
      Indices.retype r <$> definitionStep scalarNames s d := by
  cases d with
  | type t =>
    obtain ⟨N, ds, k⟩ := t
    cases k with
    | object o =>
      let t : TypeDefinition := ⟨N, ds, .object o⟩
      show (if (t.retype r).isEntity then objectArm scalarNames (t.retype r) (o.retype r)
          (s.retype r) else pure (s.retype r)) =
        Indices.retype r <$> (if t.isEntity then objectArm scalarNames t o s else pure s)
      rw [show (t.retype r).isEntity = t.isEntity from rfl]
      split
      · exact objectArm_retype r scalarNames t o s
      · rfl
    | enum e => exact congrArg pure (enumArm_retype r rfl e s)
    | union u => exact unionArm_retype r scalarNames rfl u s
    | scalar | interface | inputObject => rfl
  | schema | directive => rfl

/-- **The definition loop commutes with a retyping.** -/
theorem definitions_retype : ∀ (ds : List TypeSystemDefinition) (s : Indices),
    definitions scalarNames (ds.map (TypeSystemDefinition.retype r)) (s.retype r) =
      Indices.retype r <$> definitions scalarNames ds s
  | [], _ => rfl
  | d :: ds, s => by
    simp only [definitions, List.map_cons, definitionStep_retype]
    cases definitionStep scalarNames s d with
    | error => rfl
    | ok b => exact definitions_retype ds b

end Indices

theorem typedefNamesToTypesOf_retype (l : List (String × TypeDefinition)) :
    typedefNamesToTypesOf (l.map fun e => (e.1, e.2.retype r)) = typedefNamesToTypesOf l := by
  simp only [typedefNamesToTypesOf, List.filter_map, List.foldl_map, Function.comp_def,
    TypeDefinition.retype_kind, TypeKind.isEnum_retype]

/-- **`new` commutes with every retyping.**  On a document whose field types
are changed by a map that keeps their base names, their nullability and
whether they are one-level lists, `new` returns the model it returns on the
original document, with the stored fields changed the same way; and where it
fails on one, it fails on the other with the same error or panic.  So nothing
else of a field's type is ever read: in particular its list depth beyond the
first level is not checked. -/
theorem new_retype (scalarNames : Finset String) (doc : ServiceDocument) :
    ParsedGraphQLSchema.new scalarNames (some (doc.retype r)) =
      ParsedGraphQLSchema.retype r <$> ParsedGraphQLSchema.new scalarNames (some doc) := by
  have h := Indices.definitions_retype r scalarNames doc.definitions Indices.empty
  rw [Indices.empty_retype] at h
  show Indices.definitions scalarNames (doc.definitions.map _) Indices.empty >>= _ =
    _ <$> (Indices.definitions scalarNames doc.definitions Indices.empty >>= _)
  rw [h]
  cases Indices.definitions scalarNames doc.definitions Indices.empty with
  | error => rfl
  | ok s =>
    show Except.ok (ParsedGraphQLSchema.mk (s.retype r) scalarNames
        (typedefNamesToTypesOf (s.retype r).typeDefs)) = _
    rw [show (s.retype r).typeDefs = s.typeDefs.map fun e => (e.1, e.2.retype r) from rfl,
      typedefNamesToTypesOf_retype]
    rfl

end GraphQL
end FuelIndexer
