import FuelIndexer.GraphQL.Parser.Basic

/-!
# The object arm

`TypeKind::Object` in the definition loop of `ParsedGraphQLSchema::new`, for
an object with `@entity` (the loop skips every other object).  The arm records
the object, then walks its fields in order, and for field `i`:

1. pushes `OrderedField(field, i)` under the object's name;
2. for a list field, records its type string and the object;
3. marks the object virtual if a directive argument of it is named `virtual`;
4. runs the foreign-key test on the field's base type, *against the caches as
   they stand*, and on success runs `joinForeignKey` and records the key in
   `foreign_key_mappings` under the lowercased object name;
5. registers the field: its name goes into `parsed_typedef_names`, and its id
   into the three field maps.

Step 4 reads what earlier steps wrote: `parsed_typedef_names` holds the object's
own name and the names of its earlier fields, and `virtual_type_names` holds the
object itself once step 3 has run.  `objectField` keeps that order.
-/

namespace FuelIndexer
namespace GraphQL

/-- Whether a directive argument of `t` is named `virtual`.  The value of the
argument is not read. -/
def TypeDefinition.isVirtual (t : TypeDefinition) : Bool :=
  t.directives.any fun d => d.arguments.any fun a => a.1.val == "virtual"

namespace Indices

variable (scalarNames : Finset String)

/-- Steps 1 to 3 of a field turn: the ordered field, the list records and the
virtual mark. -/
def objectFieldRecord (t : TypeDefinition) (i : Nat) (field : FieldDefinition) (s : Indices) :
    Indices :=
  let objName := t.name.val
  let s := { s with objectOrderedFields := pushEntry s.objectOrderedFields objName ⟨field, i⟩ }
  let s := if isListType field then
      { s with
        listFieldTypes := insert (listFieldTypeName field) s.listFieldTypes
        listTypeDefs := Function.update s.listTypeDefs objName (some t) }
    else s
  if t.isVirtual then { s with virtualTypeNames := insert objName s.virtualTypeNames } else s

/-- Step 4 of a field turn: the foreign-key test and block, and the key in
`foreign_key_mappings` under the lowercased object name. -/
def objectFieldKey (t : TypeDefinition) (i : Nat) (field : FieldDefinition) (s : Indices) :
    Except Failure Indices :=
  if s.isPossibleForeignKey scalarNames (fieldTypeName field) then
    (fun r => { r.1 with
      foreignKeyMappings := insertNested r.1.foreignKeyMappings (toLowercase t.name.val)
        field.name.val (toLowercase (fieldTypeName field), r.2) }) <$>
      s.joinForeignKey t.name.val i field
  else pure s

/-- Step 5 of a field turn: the field's name joins `parsed_typedef_names`, and
its id the three field maps. -/
def objectFieldRegister (t : TypeDefinition) (field : FieldDefinition) (s : Indices) : Indices :=
  { s.registerField (fieldId t.name.val field.name.val) field t.name.val with
    parsedTypedefNames := insert field.name.val s.parsedTypedefNames }

/-- One turn of the object arm's field loop: field `field` at position `i` of
the entity object `t`, with the object's `field_mapping` so far. -/
def objectField (t : TypeDefinition) (i : Nat) (field : FieldDefinition) (s : Indices)
    (fieldMapping : String → Option String) :
    Except Failure (Indices × (String → Option String)) :=
  (fun s => (objectFieldRegister t field s,
      Function.update fieldMapping field.name.val (some (fieldTypeName field)))) <$>
    objectFieldKey scalarNames t i field (objectFieldRecord t i field s)

theorem objectFieldRecord_eq (t : TypeDefinition) (i : Nat) (f : FieldDefinition)
    (s : Indices) : objectFieldRecord t i f s =
      { s with
        objectOrderedFields := pushEntry s.objectOrderedFields t.name.val ⟨f, i⟩
        listFieldTypes := if isListType f then insert (listFieldTypeName f) s.listFieldTypes
          else s.listFieldTypes
        listTypeDefs := if isListType f then Function.update s.listTypeDefs t.name.val (some t)
          else s.listTypeDefs
        virtualTypeNames := if t.isVirtual then insert t.name.val s.virtualTypeNames
          else s.virtualTypeNames } := by
  unfold objectFieldRecord
  split_ifs <;> rfl

theorem objectFieldKey_eq_ok {t : TypeDefinition} {i : Nat} {f : FieldDefinition}
    {c c' : Indices} (h : objectFieldKey scalarNames t i f c = .ok c') :
    c' = { c with
      joinTableMeta := pushEntries c.joinTableMeta t.name.val
        (if c.isPossibleForeignKey scalarNames (fieldTypeName f) && isListType f then
          [joinEntry t.name.val i f] else [])
      foreignKeyMappings := if c.isPossibleForeignKey scalarNames (fieldTypeName f) then
          insertNested c.foreignKeyMappings (toLowercase t.name.val) f.name.val
            (toLowercase (fieldTypeName f), joinColumn f)
        else c.foreignKeyMappings } := by
  unfold objectFieldKey at h
  split at h
  · obtain ⟨r, hr, rfl⟩ := Except.map_eq_ok.1 h
    simp [joinForeignKey_eq_ok hr, *]
  · cases h
    simp [*]

/-- **One field turn, when it returns.**  `objectFieldRecord`, then the key
block with the test on the recorded caches, then the registration. -/
theorem objectField_eq_ok {t : TypeDefinition} {i : Nat} {f : FieldDefinition} {s : Indices}
    {fm : String → Option String} {r : Indices × (String → Option String)}
    (h : objectField scalarNames t i f s fm = .ok r) :
    r = (objectFieldRegister t f { objectFieldRecord t i f s with
      joinTableMeta := pushEntries s.joinTableMeta t.name.val
        (if (objectFieldRecord t i f s).isPossibleForeignKey scalarNames (fieldTypeName f) &&
          isListType f then [joinEntry t.name.val i f] else [])
      foreignKeyMappings :=
        if (objectFieldRecord t i f s).isPossibleForeignKey scalarNames (fieldTypeName f) then
          insertNested s.foreignKeyMappings (toLowercase t.name.val) f.name.val
            (toLowercase (fieldTypeName f), joinColumn f)
        else s.foreignKeyMappings },
      Function.update fm f.name.val (some (fieldTypeName f))) := by
  obtain ⟨c', hc', rfl⟩ := Except.map_eq_ok.1 h
  rw [objectFieldKey_eq_ok scalarNames hc']
  simp only [objectFieldRecord_eq]

/-- The object arm's field loop, from position `i`. -/
def objectFields (t : TypeDefinition) :
    Nat → List FieldDefinition → Indices → (String → Option String) →
      Except Failure (Indices × (String → Option String))
  | _, [], s, fieldMapping => pure (s, fieldMapping)
  | i, f :: fs, s, fieldMapping => do
    let r ← objectField scalarNames t i f s fieldMapping
    objectFields t (i + 1) fs r.1 r.2

/-! ## The field loop -/

section FieldLoop

variable {t : TypeDefinition} {fm : String → Option String} {r : Indices × (String → Option String)}

/-- The field loop writes neither the type caches nor `object_field_mappings`. -/
theorem objectFields_eq : ∀ {i : Nat} {fs : List FieldDefinition} {s : Indices}
    {fm : String → Option String} {r : Indices × (String → Option String)},
    objectFields scalarNames t i fs s fm = .ok r → r.1 = { s with
      objectOrderedFields := r.1.objectOrderedFields
      listFieldTypes := r.1.listFieldTypes
      listTypeDefs := r.1.listTypeDefs
      virtualTypeNames := r.1.virtualTypeNames
      joinTableMeta := r.1.joinTableMeta
      foreignKeyMappings := r.1.foreignKeyMappings
      parsedTypedefNames := r.1.parsedTypedefNames
      fieldTypeOptionality := r.1.fieldTypeOptionality
      fieldTypeMappings := r.1.fieldTypeMappings
      fieldDefs := r.1.fieldDefs }
  | _, [], _, _, _, h => by cases h; rfl
  | _, f :: fs, s, fm, r, h => by
    obtain ⟨r₁, h₁, h⟩ := Except.bind_eq_ok.1 h
    rw [objectFields_eq h, objectField_eq_ok scalarNames h₁]
    simp only [objectFieldRecord_eq]
    rfl

/-- After the loop, the object is virtual when it has a field and an argument
named `virtual`. -/
theorem objectFields_virtualTypeNames : ∀ {i : Nat} {fs : List FieldDefinition} {s : Indices}
    {fm : String → Option String} {r : Indices × (String → Option String)},
    objectFields scalarNames t i fs s fm = .ok r →
      r.1.virtualTypeNames = if t.isVirtual && !fs.isEmpty then
        insert t.name.val s.virtualTypeNames else s.virtualTypeNames
  | _, [], _, _, _, h => by cases h; simp
  | _, f :: fs, s, fm, r, h => by
    obtain ⟨r₁, h₁, h⟩ := Except.bind_eq_ok.1 h
    rw [objectFields_virtualTypeNames h, objectField_eq_ok scalarNames h₁]
    cases hv : t.isVirtual <;>
      simp [objectFieldRegister, Indices.registerField, objectFieldRecord_eq, hv]

/-- The loop adds exactly the names of its fields to `parsed_typedef_names`. -/
theorem objectFields_parsedTypedefNames : ∀ {i : Nat} {fs : List FieldDefinition} {s : Indices}
    {fm : String → Option String} {r : Indices × (String → Option String)},
    objectFields scalarNames t i fs s fm = .ok r →
      r.1.parsedTypedefNames = s.parsedTypedefNames ∪ (fs.map fun f => f.name.val).toFinset
  | _, [], _, _, _, h => by cases h; simp
  | _, f :: fs, s, fm, r, h => by
    obtain ⟨r₁, h₁, h⟩ := Except.bind_eq_ok.1 h
    rw [objectFields_parsedTypedefNames h, objectField_eq_ok scalarNames h₁]
    simp [objectFieldRegister, Indices.registerField, objectFieldRecord_eq, Finset.insert_union,
      Finset.union_insert]

/-- The loop adds the type string of each list field, without `!`, to
`list_field_types`, and records the object in `list_type_defs` once it has a
list field. -/
theorem objectFields_listCaches : ∀ {i : Nat} {fs : List FieldDefinition} {s : Indices}
    {fm : String → Option String} {r : Indices × (String → Option String)},
    objectFields scalarNames t i fs s fm = .ok r →
      r.1.listFieldTypes =
          s.listFieldTypes ∪ ((fs.filter isListType).map listFieldTypeName).toFinset ∧
        r.1.listTypeDefs = if (fs.filter isListType).isEmpty then s.listTypeDefs
          else Function.update s.listTypeDefs t.name.val (some t)
  | _, [], _, _, _, h => by cases h; simp
  | _, f :: fs, s, fm, r, h => by
    obtain ⟨r₁, h₁, h⟩ := Except.bind_eq_ok.1 h
    obtain ⟨e₁, e₂⟩ := objectFields_listCaches h
    rw [e₁, e₂, objectField_eq_ok scalarNames h₁]
    cases hl : isListType f
    · simp only [objectFieldRegister, registerField, objectFieldRecord_eq, hl, Bool.false_eq_true,
        ↓reduceIte, List.filter_cons_of_neg, not_false_eq_true, and_self]
    · simp only [objectFieldRegister, registerField, objectFieldRecord_eq, hl, ↓reduceIte,
        Finset.insert_union, List.filter_cons_of_pos, List.map_cons, List.toFinset_cons,
        Finset.union_insert, List.isEmpty_cons, Bool.false_eq_true, Function.update_idem, ite_self,
        and_self]

theorem objectFields_parsed_mono {i : Nat} {fs : List FieldDefinition} {s : Indices}
    {fm : String → Option String} {r : Indices × (String → Option String)}
    (h : objectFields scalarNames t i fs s fm = .ok r) :
    s.parsedTypedefNames ⊆ r.1.parsedTypedefNames := by
  rw [objectFields_parsedTypedefNames scalarNames h]
  exact Finset.subset_union_left

/-- **The foreign-key test of a turn** is the test on the caches the loop ends
with, for a name that is parsed when the turn starts: the loop adds parsed
names, and the object's virtual mark is in place from the first turn on. -/
theorem objectField_test {i : Nat} {f : FieldDefinition} {fs : List FieldDefinition}
    {s : Indices} {N : String} (hr : objectFields scalarNames t i (f :: fs) s fm = .ok r) :
    (objectFieldRecord t i f s).isPossibleForeignKey scalarNames N = true ↔
      N ∈ s.parsedTypedefNames ∧ r.1.isPossibleForeignKey scalarNames N = true := by
  have hv := objectFields_virtualTypeNames scalarNames hr
  have hp := objectFields_parsed_mono scalarNames hr
  have he : r.1.enumNames = s.enumNames := by rw [objectFields_eq scalarNames hr]
  simp only [List.isEmpty_cons, Bool.not_false, Bool.and_true] at hv
  simp only [Indices.isPossibleForeignKey_eq_true, objectFieldRecord_eq, he, hv]
  exact ⟨fun h => ⟨h.1, hp h.1, h.2⟩, fun h => ⟨h.1, h.2.2⟩⟩

/-- **The join-table entries of the loop.**  Under the object the loop appends
a sublist of the `joinEntry`s of its list fields, at their positions, and that
sublist holds the entry of every list field whose base type is parsed when the
loop starts and passes the test the loop ends with. -/
theorem objectFields_joinTableMeta : ∀ {i : Nat} {fs : List FieldDefinition} {s : Indices}
    {fm : String → Option String} {r : Indices × (String → Option String)},
    objectFields scalarNames t i fs s fm = .ok r →
      ∃ L, r.1.joinTableMeta = pushEntries s.joinTableMeta t.name.val L ∧
        L.Sublist (((fs.enumFrom i).filter fun e => isListType e.2).map fun e =>
          joinEntry t.name.val e.1 e.2) ∧
        ∀ e ∈ fs.enumFrom i, isListType e.2 = true →
          fieldTypeName e.2 ∈ s.parsedTypedefNames →
          r.1.isPossibleForeignKey scalarNames (fieldTypeName e.2) = true →
          joinEntry t.name.val e.1 e.2 ∈ L
  | _, [], _, _, _, h => by cases h; exact ⟨[], rfl, List.nil_sublist _, by simp⟩
  | i, f :: fs, s, fm, r, h => by
    obtain ⟨r₁, h₁, h'⟩ := Except.bind_eq_ok.1 h
    obtain ⟨L, hL, hsub, hcomp⟩ := objectFields_joinTableMeta h'
    have hr₁ := objectField_eq_ok scalarNames h₁
    have hp₁ : s.parsedTypedefNames ⊆ r₁.1.parsedTypedefNames := by
      rw [hr₁]; simp [objectFieldRegister, Indices.registerField, objectFieldRecord_eq,
        Finset.subset_insert]
    set g := (objectFieldRecord t i f s).isPossibleForeignKey scalarNames (fieldTypeName f)
    refine ⟨(if g && isListType f then [joinEntry t.name.val i f] else []) ++ L, ?_, ?_, ?_⟩
    · rw [hL, pushEntries_append, hr₁]
      rfl
    · rw [List.enumFrom_cons, List.filter_cons]
      cases hl : isListType f <;> cases g <;> simp [hsub, List.Sublist.cons]
    · intro e he hl hpe hg
      rw [List.enumFrom_cons, List.mem_cons] at he
      rcases he with rfl | he
      · have : g = true := (objectField_test scalarNames h).2 ⟨hpe, hg⟩
        simp [this, hl]
      · exact List.mem_append_right _ (hcomp e he hl (hp₁ hpe) hg)

theorem objectFields_foreignKeyMappings_of_ne {k : String} (hk : k ≠ toLowercase t.name.val) :
    ∀ {i : Nat} {fs : List FieldDefinition} {s : Indices} {fm : String → Option String}
      {r : Indices × (String → Option String)},
      objectFields scalarNames t i fs s fm = .ok r →
        r.1.foreignKeyMappings k = s.foreignKeyMappings k
  | _, [], _, _, _, h => by cases h; rfl
  | _, f :: fs, s, fm, r, h => by
    obtain ⟨r₁, h₁, h⟩ := Except.bind_eq_ok.1 h
    rw [objectFields_foreignKeyMappings_of_ne hk h, objectField_eq_ok scalarNames h₁]
    split_ifs <;> simp [objectFieldRegister, Indices.registerField, insertNested_apply, hk]

theorem objectField_foreignKey {i : Nat} {f : FieldDefinition} {s : Indices}
    {r₁ : Indices × (String → Option String)} {n : String}
    (h₁ : objectField scalarNames t i f s fm = .ok r₁) :
    (r₁.1.foreignKeyMappings (toLowercase t.name.val)).bind (fun mp => mp n) =
      if (objectFieldRecord t i f s).isPossibleForeignKey scalarNames (fieldTypeName f) = true ∧
        n = f.name.val then some (toLowercase (fieldTypeName f), joinColumn f)
      else (s.foreignKeyMappings (toLowercase t.name.val)).bind fun mp => mp n := by
  rw [objectField_eq_ok scalarNames h₁]
  by_cases hg : (objectFieldRecord t i f s).isPossibleForeignKey scalarNames
    (fieldTypeName f) = true <;>
    simp [objectFieldRegister, Indices.registerField, bind_insertNested, hg]

/-- Every value the loop records under the lowercased object name was there,
or is the referenced table and column of one of its fields of that name. -/
theorem objectFields_foreignKey_value {n : String} {v : String × String} :
    ∀ {i : Nat} {fs : List FieldDefinition} {s : Indices} {fm : String → Option String}
      {r : Indices × (String → Option String)},
      objectFields scalarNames t i fs s fm = .ok r →
      ((r.1.foreignKeyMappings (toLowercase t.name.val)).bind fun mp => mp n) = some v →
      ((s.foreignKeyMappings (toLowercase t.name.val)).bind fun mp => mp n) = some v ∨
        ∃ f ∈ fs, f.name.val = n ∧ v = (toLowercase (fieldTypeName f), joinColumn f)
  | _, [], _, _, _, h, hn => by cases h; exact .inl hn
  | i, f :: fs, s, fm, r, h, hn => by
    obtain ⟨r₁, h₁, h'⟩ := Except.bind_eq_ok.1 h
    rcases objectFields_foreignKey_value h' hn with hn | ⟨g, hg, rfl, rfl⟩
    · rw [objectField_foreignKey scalarNames h₁] at hn
      split at hn
      · rename_i hf
        exact .inr ⟨f, List.mem_cons_self _ _, hf.2.symm, (Option.some.inj hn).symm⟩
      · exact .inl hn
    · exact .inr ⟨g, List.mem_cons_of_mem _ hg, rfl, rfl⟩

theorem objectFields_objectOrderedFields : ∀ {i : Nat} {fs : List FieldDefinition}
    {s : Indices} {fm : String → Option String} {r : Indices × (String → Option String)},
    objectFields scalarNames t i fs s fm = .ok r →
      r.1.objectOrderedFields = pushEntries s.objectOrderedFields t.name.val
        ((fs.enumFrom i).map fun e => ⟨e.2, e.1⟩)
  | _, [], _, _, _, h => by cases h; rfl
  | i, f :: fs, s, fm, r, h => by
    obtain ⟨r₁, h₁, h⟩ := Except.bind_eq_ok.1 h
    rw [objectFields_objectOrderedFields h, objectField_eq_ok scalarNames h₁]
    simp only [objectFieldRegister, Indices.registerField, objectFieldRecord_eq,
      List.enumFrom_cons, List.map_cons]
    rfl

/-- The loop writes the three field maps only at the object's field ids. -/
theorem objectFields_fieldMaps_of_ne {k : String} (hk : ∀ n, k ≠ fieldId t.name.val n) :
    ∀ {i : Nat} {fs : List FieldDefinition} {s : Indices} {fm : String → Option String}
      {r : Indices × (String → Option String)},
      objectFields scalarNames t i fs s fm = .ok r →
        r.1.fieldDefs k = s.fieldDefs k ∧ r.1.fieldTypeMappings k = s.fieldTypeMappings k ∧
          r.1.fieldTypeOptionality k = s.fieldTypeOptionality k
  | _, [], _, _, _, h => by cases h; exact ⟨rfl, rfl, rfl⟩
  | _, f :: fs, s, fm, r, h => by
    obtain ⟨r₁, h₁, h⟩ := Except.bind_eq_ok.1 h
    rw [(objectFields_fieldMaps_of_ne hk h).1, (objectFields_fieldMaps_of_ne hk h).2.1,
      (objectFields_fieldMaps_of_ne hk h).2.2, objectField_eq_ok scalarNames h₁]
    simp [objectFieldRegister, Indices.registerField, objectFieldRecord_eq,
      Function.update_noteq (hk _)]

/-- Every field name the loop walks ends in `parsed_typedef_names`. -/
theorem objectFields_fieldNames_parsed {i : Nat} {fs : List FieldDefinition} {s : Indices}
    {fm : String → Option String} {r : Indices × (String → Option String)}
    (h : objectFields scalarNames t i fs s fm = .ok r) :
    ∀ g ∈ fs, g.name.val ∈ r.1.parsedTypedefNames := fun g hg => by
  rw [objectFields_parsedTypedefNames scalarNames h]
  exact Finset.mem_union_right _ (List.mem_toFinset.2 (List.mem_map_of_mem _ hg))

/-- **The loop writes the last field of each name** under the object's field
ids, and its `field_mapping` the same field's type. -/
theorem objectFields_at (n : String) : ∀ {i : Nat} {fs : List FieldDefinition} {s : Indices}
    {fm : String → Option String} {r : Indices × (String → Option String)},
    objectFields scalarNames t i fs s fm = .ok r →
      let L := lastFieldNamed (fs.map fun f => (t.name.val, f)) n
      r.1.fieldDefs (fieldId t.name.val n) =
          (L.map fun p => (p.2, p.1)).or (s.fieldDefs (fieldId t.name.val n)) ∧
        r.1.fieldTypeMappings (fieldId t.name.val n) =
          (L.map fun p => fieldTypeName p.2).or (s.fieldTypeMappings (fieldId t.name.val n)) ∧
        r.1.fieldTypeOptionality (fieldId t.name.val n) =
          (L.map fun p => p.2.ty.nullable).or (s.fieldTypeOptionality (fieldId t.name.val n)) ∧
        r.2 n = (L.map fun p => fieldTypeName p.2).or (fm n)
  | _, [], _, _, _, h => by cases h; simp [lastFieldNamed]
  | _, f :: fs, s, fm, r, h => by
    obtain ⟨r₁, h₁, h⟩ := Except.bind_eq_ok.1 h
    obtain ⟨e₁, e₂, e₃, e₄⟩ := objectFields_at n h
    simp only [List.map_cons, lastFieldNamed_cons]
    rw [e₁, e₂, e₃, e₄, objectField_eq_ok scalarNames h₁]
    by_cases hn : f.name.val = n
    · subst hn
      cases lastFieldNamed (fs.map fun f => (t.name.val, f)) f.name.val <;>
        simp [objectFieldRegister, Indices.registerField, objectFieldRecord_eq]
    · have hid : fieldId t.name.val n ≠ fieldId t.name.val f.name.val :=
        fun h => hn (fieldId_left_inj.1 h).symm
      cases lastFieldNamed (fs.map fun f => (t.name.val, f)) n <;>
        simp [objectFieldRegister, Indices.registerField, objectFieldRecord_eq, hn, Ne.symm hn,
          Function.update_noteq hid]

end FieldLoop

/-- What the object arm records before its field loop. -/
def registerObject (t : TypeDefinition) (o : ObjectType) (s : Indices) : Indices :=
  { s with
    typeDefs := insertEntry s.typeDefs t.name.val t
    objects := Function.update s.objects t.name.val (some o)
    parsedTypedefNames := insert t.name.val s.parsedTypedefNames }

/-- The object arm, for an entity object `t` with body `o`. -/
def objectArm (t : TypeDefinition) (o : ObjectType) (s : Indices) : Except Failure Indices := do
  let r ← objectFields scalarNames t 0 o.fields (registerObject t o s) fun _ => none
  pure { r.1 with
    objectFieldMappings := Function.update r.1.objectFieldMappings t.name.val (some r.2) }

theorem objectArm_eq_ok {t : TypeDefinition} {o : ObjectType} {s s' : Indices}
    (h : objectArm scalarNames t o s = .ok s') :
    ∃ r, objectFields scalarNames t 0 o.fields (registerObject t o s) (fun _ => none) = .ok r ∧
      s' = { r.1 with
        objectFieldMappings := Function.update r.1.objectFieldMappings t.name.val (some r.2) } := by
  obtain ⟨r, hr, h⟩ := Except.bind_eq_ok.1 h
  exact ⟨r, hr, (Except.pure_eq_ok.1 h).symm⟩

/-- **The object arm writes the last field of each name** under the object's
field ids, from caches with no `object_field_mappings` entry under it. -/
theorem objectArm_writesLast {t : TypeDefinition} {o : ObjectType} {s s' : Indices}
    (h : objectArm scalarNames t o s = .ok s') (ho : s.objectFieldMappings t.name.val = none) :
    WritesLast t.name.val (o.fields.map fun f => (t.name.val, f)) s s' := by
  obtain ⟨r, hr, rfl⟩ := objectArm_eq_ok scalarNames h
  intro n
  obtain ⟨e₁, e₂, e₃, e₄⟩ := objectFields_at scalarNames n hr
  exact ⟨e₁, e₂, e₃, by simp [e₄, ho]⟩

/-- **The join-table entries of an entity object's step**, from an empty
entry: the entries of a sublist of its list fields, in field order, holding
every list field whose base type is the object or parsed before it and passes
the test on the caches the step ends with. -/
theorem objectArm_joinTableMeta {t : TypeDefinition} {o : ObjectType} {s s' : Indices}
    (h : objectArm scalarNames t o s = .ok s') (hj : s.joinTableMeta t.name.val = none) :
    ∃ S : List (ℕ × FieldDefinition), S.Sublist (o.fields.enum.filter fun e => isListType e.2) ∧
      (s'.joinTableMeta t.name.val).getD [] = S.map (fun e => joinEntry t.name.val e.1 e.2) ∧
      ∀ e ∈ o.fields.enum, isListType e.2 = true →
        fieldTypeName e.2 ∈ insert t.name.val s.parsedTypedefNames →
        s'.isPossibleForeignKey scalarNames (fieldTypeName e.2) = true →
        joinEntry t.name.val e.1 e.2 ∈ (s'.joinTableMeta t.name.val).getD [] := by
  obtain ⟨r, hr, rfl⟩ := objectArm_eq_ok scalarNames h
  obtain ⟨L, hL, hsub, hcomp⟩ := objectFields_joinTableMeta scalarNames hr
  obtain ⟨S, hS, rfl⟩ := List.sublist_map_iff.1 hsub
  have hE : (r.1.joinTableMeta t.name.val).getD [] =
      S.map fun e => joinEntry t.name.val e.1 e.2 := by
    rw [hL, getD_pushEntries_self]
    simp [registerObject, hj]
  exact ⟨S, hS, hE, fun e he hl hp hg => hE ▸ hcomp e he hl hp hg⟩

/-- The ordered fields of an entity object's step, from an empty entry: every
field with its position. -/
theorem objectArm_objectOrderedFields {t : TypeDefinition} {o : ObjectType} {s s' : Indices}
    (h : objectArm scalarNames t o s = .ok s') (hj : s.objectOrderedFields t.name.val = none) :
    (s'.objectOrderedFields t.name.val).getD [] = o.fields.enum.map fun e => ⟨e.2, e.1⟩ := by
  obtain ⟨r, hr, rfl⟩ := objectArm_eq_ok scalarNames h
  rw [objectFields_objectOrderedFields scalarNames hr]
  simp [getD_pushEntries_self, registerObject, hj, List.enum]

end Indices

end GraphQL
end FuelIndexer
