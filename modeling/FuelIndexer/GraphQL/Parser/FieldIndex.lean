import FuelIndexer.GraphQL.Parser.Run

/-!
# The field indices

The pass keeps four maps about fields in step with each other by writing them
in separate statements: `field_defs`, `field_type_mappings` and
`field_type_optionality` by field id, and `object_field_mappings` by type name
and field name.  Three arms write them, each under its own name only:

* an entity object writes its own fields, one turn at a time, all four maps
  for the same field at each turn, so the last field of a name stays;
* an enum writes each value into `object_field_mappings` and
  `field_type_mappings` only, and nothing into `field_defs`;
* a union writes every field of every member again, under its own name, with
  no `processed_fields` check, so for a field name that several members share
  the last member's field stays.

## The invariant

`AgreeAt K s` is the agreement of the four maps at the name of one type
definition `K`.  `FieldIndex p s` asks it of every type definition of `p`, and
adds that every `field_defs` id and every `object_field_mappings` key belongs to
one of them.  The object and the union arm both write the last field of each
name under their own field ids (`WritesLast`), which is agreement there when
nothing was written under the name before (`AgreeAt.of_writesLast`).  So each
arm leaves its own name in agreement (`definitionStep_agreeAt`), the step
frame keeps the agreement of every other name (`AgreeAt.of_keyFrame`), and
the support clauses make the name of each new step fresh.  `definitions_fieldIndex` carries
the invariant over the whole loop and `fieldIndices_agree` reads it on `new`.

## Which field is registered

`objectField_last_occurrence`: an entity object's field maps hold, at each
field name, the object's last field of that name, and nothing at other names.
`objectOrderedFields_positions`: its ordered fields are all its fields, with
their positions.
`unionField_last_occurrence`: at a field name its members share, a union's
field maps hold the field of the last member that has one, not the first one
that the union's join-table view keeps.
`enumValue_fields`: an enum's values are synonym fields typed by the enum, in
`field_type_mappings` and `object_field_mappings` only.
-/

namespace FuelIndexer
namespace GraphQL

open Indices

/-! ## Agreement at one name -/

/-- The field indices agree at the name of `K`.  An entry of `field_defs` under
a field id of `K` is a field of that name, `K` is an entity object or a union,
and the other three maps hold the field's type and nullability.  Unless `K` is
an enum, every entry of `object_field_mappings[K]` has an id in the three field
maps. -/
structure AgreeAt (K : TypeDefinition) (s : Indices) : Prop where
  fieldDefs : ∀ n f owner, s.fieldDefs (fieldId K.name.val n) = some (f, owner) →
    K.isParsedType ∧ f.name.val = n ∧
      s.fieldTypeMappings (fieldId K.name.val n) = some (fieldTypeName f) ∧
      ((s.objectFieldMappings K.name.val).bind fun mp => mp n) = some (fieldTypeName f) ∧
      s.fieldTypeOptionality (fieldId K.name.val n) = some f.ty.nullable
  mappings : ∀ mp n, K.name.val ∉ s.enumNames → s.objectFieldMappings K.name.val = some mp →
    (mp n).isSome → (s.fieldDefs (fieldId K.name.val n)).isSome ∧
      (s.fieldTypeMappings (fieldId K.name.val n)).isSome ∧
      (s.fieldTypeOptionality (fieldId K.name.val n)).isSome

namespace AgreeAt

variable {K : TypeDefinition} {a b : Indices}

/-- A step that keeps the frame of `K`'s name keeps the agreement there. -/
theorem of_keyFrame (h : AgreeAt K a) (hk : KeyFrame K.name a b) : AgreeAt K b where
  fieldDefs n f owner hf := by
    obtain ⟨h₁, h₂, h₃⟩ := hk.fieldMaps n
    rw [h₂, h₃, hk.objectFieldMappings]
    exact h.fieldDefs n f owner (h₁ ▸ hf)
  mappings mp n he hm hn := by
    obtain ⟨h₁, h₂, h₃⟩ := hk.fieldMaps n
    rw [h₁, h₂, h₃]
    exact h.mappings mp n (fun h' => he (hk.enumNames.2 h')) (hk.objectFieldMappings ▸ hm) hn

/-- A step that writes the last field of each name under the field ids of an
entity object or union `K`, from caches with nothing under its name, leaves
the agreement there. -/
theorem of_writesLast {ps : List (String × FieldDefinition)} (hK : K.isParsedType = true)
    (hw : WritesLast K.name.val ps a b) (hd : ∀ n, a.fieldDefs (fieldId K.name.val n) = none)
    (ho : a.objectFieldMappings K.name.val = none) : AgreeAt K b where
  fieldDefs n f owner hf := by
    obtain ⟨h₁, h₂, h₃, h₄⟩ := hw n
    rw [h₁, hd, Option.or_none] at hf
    obtain ⟨p, hp, hpf⟩ := Option.map_eq_some'.1 hf
    obtain ⟨rfl, -⟩ := Prod.mk.inj hpf
    rw [h₂, h₃, h₄, hp, ho]
    exact ⟨hK, lastFieldNamed_name hp, rfl, rfl, rfl⟩
  mappings mp n _ hm hn := by
    obtain ⟨h₁, h₂, h₃, h₄⟩ := hw n
    rw [hm, ho, Option.none_bind, Option.or_none, Option.some_bind] at h₄
    rw [h₄, Option.isSome_map'] at hn
    obtain ⟨p, hp⟩ := Option.isSome_iff_exists.1 hn
    simp [h₁, h₂, h₃, hp]

/-- Nothing written under a name is agreement there. -/
theorem of_fresh (hd : ∀ n, a.fieldDefs (fieldId K.name.val n) = none)
    (ho : a.objectFieldMappings K.name.val = none) : AgreeAt K a where
  fieldDefs n _ _ hf := by rw [hd n] at hf; cases hf
  mappings _ _ _ hm := by rw [ho] at hm; cases hm

end AgreeAt

/-! ## Each arm at its own name -/

section Arms

variable (scalarNames : Finset String) {t : TypeDefinition} {a b : Indices}

/-- The enum arm writes no `field_defs` entry, and its own name is an enum
name after it. -/
theorem enumArm_agreeAt (e : EnumType)
    (hd : ∀ n, a.fieldDefs (fieldId t.name.val n) = none) : AgreeAt t (enumArm t e a) := by
  rw [enumArm_eq]
  exact ⟨fun n _ _ hf => by simp [hd n] at hf, fun _ _ he => by simp at he⟩

/-- **Each arm leaves its own name in agreement**, from caches that hold no
field id and no `object_field_mappings` entry under it. -/
theorem definitionStep_agreeAt (h : definitionStep scalarNames a (.type t) = .ok b)
    (hU : a.objects t.name.val = none) (hd : ∀ n, a.fieldDefs (fieldId t.name.val n) = none)
    (ho : a.objectFieldMappings t.name.val = none) : AgreeAt t b := by
  rw [definitionStep] at h
  split at h
  · rename_i o hk
    split at h
    · exact .of_writesLast
        (by simp [TypeDefinition.isParsedType, TypeDefinition.entityObject?, hk, *])
        (objectArm_writesLast scalarNames h ho) hd ho
    · cases h
      exact .of_fresh hd ho
  · cases h
    exact enumArm_agreeAt _ hd
  · rename_i u hk
    obtain ⟨os, -, hw⟩ := unionArm_writesLast scalarNames hU h
    exact .of_writesLast (by simp [TypeDefinition.isParsedType, hk, TypeKind.isUnion]) hw hd ho
  · cases h

end Arms

/-! ## The invariant of the loop -/

/-- The field indices after the definitions `p`: they agree at every type
definition of `p`, and every field id of `field_defs` and every key of
`object_field_mappings` is under the name of one of them. -/
structure FieldIndex (p : List TypeSystemDefinition) (s : Indices) : Prop where
  agree : ∀ K ∈ declaredTypes p, AgreeAt K s
  fieldDefs_key : ∀ k, (s.fieldDefs k).isSome →
    ∃ K ∈ declaredTypes p, ∃ n, k = fieldId K.name.val n
  objectFieldMappings_key : ∀ k, (s.objectFieldMappings k).isSome →
    ∃ K ∈ declaredTypes p, K.name.val = k

namespace FieldIndex

variable {p p' : List TypeSystemDefinition} {s : Indices}

theorem empty : FieldIndex [] Indices.empty where
  agree _ h := absurd h (List.not_mem_nil _)
  fieldDefs_key _ h := by cases h
  objectFieldMappings_key _ h := by cases h

theorem of_declaredTypes_eq (h : declaredTypes p' = declaredTypes p) (hI : FieldIndex p s) :
    FieldIndex p' s := by
  obtain ⟨h₁, h₂, h₃⟩ := hI
  rw [← h] at h₁ h₂ h₃
  exact ⟨h₁, h₂, h₃⟩

/-- Under a name not declared in `p` there is no field id, -/
theorem fieldDefs_eq_none (hI : FieldIndex p s) {T : Name} (hT : T.val ∉ declaredNames p)
    (n : String) : s.fieldDefs (fieldId T.val n) = none := by
  rw [← Option.not_isSome_iff_eq_none]
  intro hk
  obtain ⟨K, hK, n', he⟩ := hI.fieldDefs_key _ hk
  rw [(fieldId_name_inj.1 he).1] at hT
  exact hT (List.mem_map_of_mem _ hK)

/-- and no `object_field_mappings` entry. -/
theorem objectFieldMappings_eq_none (hI : FieldIndex p s) {T : String}
    (hT : T ∉ declaredNames p) : s.objectFieldMappings T = none := by
  rw [← Option.not_isSome_iff_eq_none]
  intro hk
  obtain ⟨K, hK, rfl⟩ := hI.objectFieldMappings_key _ hk
  exact hT (List.mem_map_of_mem _ hK)

/-- **The step of the invariant.**  A step whose name is fresh, that keeps its
frame and leaves its own name in agreement, keeps the invariant. -/
theorem step {t : TypeDefinition} {b : Indices} (hI : FieldIndex p s)
    (hT : t.name.val ∉ declaredNames p) (hf : StepFrame t s b) (hA : AgreeAt t b) :
    FieldIndex (p ++ [.type t]) b where
  agree K hK := by
    rw [declaredTypes_append, List.mem_append] at hK
    rcases hK with hK | hK
    · refine (hI.agree K hK).of_keyFrame (KeyFrame.of_stepFrame (fun he => hT ?_) hf)
      exact he ▸ List.mem_map_of_mem _ hK
    · obtain rfl : K = t := by simpa using hK
      exact hA
  fieldDefs_key k hk := by
    by_cases hkT : ∃ n, k = fieldId t.name.val n
    · exact ⟨t, by simp, hkT⟩
    · rw [(hf.fieldMaps k fun n he => hkT ⟨n, he⟩).1] at hk
      obtain ⟨K, hK, rest⟩ := hI.fieldDefs_key k hk
      exact ⟨K, by simp [hK], rest⟩
  objectFieldMappings_key k hk := by
    by_cases hkT : k = t.name.val
    · exact ⟨t, by simp, hkT.symm⟩
    · rw [hf.objectFieldMappings k hkT] at hk
      obtain ⟨K, hK, rest⟩ := hI.objectFieldMappings_key k hk
      exact ⟨K, by simp [hK], rest⟩

end FieldIndex

/-- **A run keeps the field indices in agreement.** -/
theorem definitions_fieldIndex (scalarNames : Finset String) {ds : List TypeSystemDefinition}
    {s' : Indices} (h : definitions scalarNames ds Indices.empty = .ok s')
    (hnd : (declaredNames ds).Nodup) : FieldIndex ds s' := by
  have := definitions_induction scalarNames (I := FieldIndex)
    (fun p a d hd hI => hI.of_declaredTypes_eq (declaredTypes_append_of_none hd))
    (fun t _ p a b hR hT hs hf hI => hI.step hT hf (definitionStep_agreeAt scalarNames hs
      (hR.objects_eq_none hT) (hI.fieldDefs_eq_none hT) (hI.objectFieldMappings_eq_none hT)))
    h Reach.empty (by simpa using hnd) FieldIndex.empty
  simpa using this.1

/-- **The four field indices agree on the result of `new`.**  Every
`field_defs` entry `(f, _)` is under the id of `f`'s name in an entity object or
union `K` of the document, where `field_type_mappings` and
`object_field_mappings[K]` hold `f`'s type name and `field_type_optionality`
its nullability.  Every name in the `object_field_mappings` of a non-enum key
has an id in the three field maps. -/
theorem fieldIndices_agree {scalarNames : Finset String} {doc : ServiceDocument}
    {m : ParsedGraphQLSchema} (h : ParsedGraphQLSchema.new scalarNames (some doc) = .ok m)
    (hnd : (declaredNames doc.definitions).Nodup) :
    (∀ k f owner, m.fieldDefs k = some (f, owner) →
      ∃ K ∈ doc.typeDefinitions, K.isParsedType ∧ k = fieldId K.name.val f.name.val ∧
        m.fieldTypeMappings k = some (fieldTypeName f) ∧
        ((m.objectFieldMappings K.name.val).bind fun mp => mp f.name.val) =
          some (fieldTypeName f) ∧
        m.fieldTypeOptionality k = some f.ty.nullable) ∧
    (∀ K mp n, K ∉ m.enumNames → m.objectFieldMappings K = some mp → (mp n).isSome →
      (m.fieldDefs (fieldId K n)).isSome ∧ (m.fieldTypeMappings (fieldId K n)).isSome ∧
        (m.fieldTypeOptionality (fieldId K n)).isSome) := by
  have hI := definitions_fieldIndex scalarNames (ParsedGraphQLSchema.new_eq_ok h).1 hnd
  refine ⟨fun k f owner hk => ?_, fun K mp n he hm hn => ?_⟩
  · obtain ⟨K, hK, n, rfl⟩ := hI.fieldDefs_key k (by simp [hk])
    obtain ⟨hp, rfl, rest⟩ := (hI.agree K hK).fieldDefs _ f owner hk
    exact ⟨K, hK, hp, rfl, rest⟩
  · obtain ⟨K', hK', rfl⟩ := hI.objectFieldMappings_key K (by simp [hm])
    exact (hI.agree K' hK').mappings mp n he hm hn

/-- The parser test's `Account.label`, which the test finds in
`field_type_optionality`: `field_defs` holds an entry there, and the type and
optionality maps agree with it. -/
theorem accountLabel_fieldIndices :
    ∃ m f owner,
      ParsedGraphQLSchema.new ParserTest.scalarNames (some ParserTest.schema) = .ok m ∧
      m.fieldDefs "Account.label" = some (f, owner) ∧
      m.fieldTypeMappings "Account.label" = some (fieldTypeName f) ∧
      m.fieldTypeOptionality "Account.label" = some f.ty.nullable := by
  obtain ⟨m, hm, -⟩ := ParserTest.new_schema
  have hs : (match ParsedGraphQLSchema.new ParserTest.scalarNames (some ParserTest.schema) with
      | .ok m => (m.fieldDefs "Account.label").isSome
      | .error _ => false) = true := by decide
  rw [hm] at hs
  obtain ⟨⟨f, owner⟩, hf⟩ := Option.isSome_iff_exists.1 hs
  obtain ⟨-, -, -, -, ht, -, ho⟩ := (fieldIndices_agree hm (by decide)).1 _ f owner hf
  exact ⟨m, f, owner, hm, hf, ht, ho⟩

/-! ## Which field a union registers -/

/-- **An entity object's field maps hold its last field of each name.**  For
an entity object `t` with body `o` of a document with distinct type names, and
any name `n`, the four maps at `t`'s field id of `n` hold the last field of `o`
named `n`, with `t` as its owner, and nothing when `o` has no such field. -/
theorem objectField_last_occurrence {scalarNames : Finset String} {doc : ServiceDocument}
    {m : ParsedGraphQLSchema} (h : ParsedGraphQLSchema.new scalarNames (some doc) = .ok m)
    (hnd : (declaredNames doc.definitions).Nodup) {t : TypeDefinition} {o : ObjectType}
    (ht : t ∈ doc.typeDefinitions) (hT : t.entityObject? = some o) (n : String) :
    let L := (o.fields.filter fun g => g.name.val = n).getLast?
    m.fieldDefs (fieldId t.name.val n) = L.map (fun g => (g, t.name.val)) ∧
      m.fieldTypeMappings (fieldId t.name.val n) = L.map fieldTypeName ∧
      m.fieldTypeOptionality (fieldId t.name.val n) = L.map (fun g => g.ty.nullable) ∧
      ((m.objectFieldMappings t.name.val).bind fun mp => mp n) = L.map fieldTypeName := by
  obtain ⟨pre, post, hsplit⟩ := List.append_of_mem (mem_declaredTypes.1 ht)
  obtain ⟨s₁, s₂, hr⟩ := definitions_at scalarNames (ParsedGraphQLSchema.new_eq_ok h).1 hnd hsplit
  have hkf₁ := hr.keyFrame_before hr.fresh
  have hstep := hr.step
  rw [definitionStep_of_entityObject scalarNames hT] at hstep
  obtain ⟨h₁, h₂, h₃, h₄⟩ :=
    objectArm_writesLast scalarNames hstep (by rw [hkf₁.objectFieldMappings]; rfl) n
  obtain ⟨k₁, k₂, k₃⟩ := hkf₁.fieldMaps n
  have hkf := hr.keyFrame_after hr.last
  rw [(hkf.fieldMaps n).1, (hkf.fieldMaps n).2.1, (hkf.fieldMaps n).2.2, hkf.objectFieldMappings,
    h₁, h₂, h₃, h₄, k₁, k₂, k₃, hkf₁.objectFieldMappings, lastFieldNamed_map_pair]
  simp [Indices.empty, Option.map_map, Function.comp_def]

/-- The parser test's `Account.label: AccountLabel`, the field whose optionality
the test looks up: it is nullable, of type `AccountLabel`. -/
theorem accountLabel_objectField :
    ∃ m, ParsedGraphQLSchema.new ParserTest.scalarNames (some ParserTest.schema) = .ok m ∧
      m.fieldTypeOptionality "Account.label" = some true ∧
      m.fieldTypeMappings "Account.label" = some "AccountLabel" := by
  obtain ⟨m, hm, -⟩ := ParserTest.new_schema
  obtain ⟨-, h₂, h₃, -⟩ := objectField_last_occurrence hm (by decide)
    (t := ParserTest.entity "Account" [ParserTest.field "id" "ID",
      ParserTest.field "address" "Address", ParserTest.field "label" "AccountLabel" true])
    (by decide) rfl "label"
  exact ⟨m, hm, h₃.trans (by decide), h₂.trans (by decide)⟩

/-- **An entity object's ordered fields are its fields with their
positions**, in declaration order, for a document with distinct type names. -/
theorem objectOrderedFields_positions {scalarNames : Finset String} {doc : ServiceDocument}
    {m : ParsedGraphQLSchema} (h : ParsedGraphQLSchema.new scalarNames (some doc) = .ok m)
    (hnd : (declaredNames doc.definitions).Nodup) {t : TypeDefinition} {o : ObjectType}
    (ht : t ∈ doc.typeDefinitions) (hT : t.entityObject? = some o) :
    (m.objectOrderedFields t.name.val).getD [] = o.fields.enum.map fun e => ⟨e.2, e.1⟩ := by
  obtain ⟨pre, post, hsplit⟩ := List.append_of_mem (mem_declaredTypes.1 ht)
  obtain ⟨s₁, s₂, hr⟩ := definitions_at scalarNames (ParsedGraphQLSchema.new_eq_ok h).1 hnd hsplit
  exact hr.objectOrderedFields_eq hT

/-- The parser test's `Vault`: `id`, `label` and `user` at positions 0, 1, 2. -/
theorem vault_objectOrderedFields :
    ∃ m, ParsedGraphQLSchema.new ParserTest.scalarNames (some ParserTest.schema) = .ok m ∧
      ((m.objectOrderedFields "Vault").getD []).map (fun e => (e.field.name.val, e.position)) =
        [("id", 0), ("label", 1), ("user", 2)] := by
  obtain ⟨m, hm, -⟩ := ParserTest.new_schema
  have h := objectOrderedFields_positions hm (by decide) (t := ParserTest.vault) (by decide) rfl
  exact ⟨m, hm, (congrArg (List.map _) h).trans (by decide)⟩

/-- **A union's field maps hold the last member field of each name.**  For a
union `t` of a document with distinct type names, whose members are the
entity objects with bodies `os`, and a field name `n` whose last occurrence
among the members' fields is `f`, the union's field id of `n` has `f`'s type
name and nullability, `object_field_mappings[t][n]` is `f`'s type name, and
`field_defs` holds `f`. -/
theorem unionField_last_occurrence {scalarNames : Finset String} {doc : ServiceDocument}
    {m : ParsedGraphQLSchema} (h : ParsedGraphQLSchema.new scalarNames (some doc) = .ok m)
    (hnd : (declaredNames doc.definitions).Nodup) {t : TypeDefinition} {u : UnionType}
    (ht : t ∈ doc.typeDefinitions) (hk : t.kind = .union u) {os : List ObjectType}
    (hos : List.Forall₂ (fun M o => ∃ t' ∈ doc.typeDefinitions,
      t'.name = M ∧ t'.entityObject? = some o) u.members os)
    {n : String} {f : FieldDefinition}
    (hf : ((os.flatMap ObjectType.fields).filter fun g => g.name.val = n).getLast? = some f) :
    m.fieldTypeMappings (fieldId t.name.val n) = some (fieldTypeName f) ∧
      ((m.objectFieldMappings t.name.val).bind fun mp => mp n) = some (fieldTypeName f) ∧
      m.fieldTypeOptionality (fieldId t.name.val n) = some f.ty.nullable ∧
      ∃ owner, m.fieldDefs (fieldId t.name.val n) = some (f, owner) := by
  obtain ⟨pre, post, hsplit⟩ := List.append_of_mem (mem_declaredTypes.1 ht)
  obtain ⟨s₁, s₂, hr⟩ := definitions_at scalarNames (ParsedGraphQLSchema.new_eq_ok h).1 hnd hsplit
  rw [ServiceDocument.typeDefinitions, hsplit] at hos
  obtain ⟨p, hp, rfl⟩ : ∃ p, lastFieldNamed (memberFieldPairs u.members os) n = some p ∧
      p.2 = f := by
    have := lastFieldNamed_map_snd (memberFieldPairs u.members os) n
    rw [memberFieldPairs_map_snd hos.length_eq, hf] at this
    exact Option.map_eq_some'.1 this
  have hkf := hr.keyFrame_after hr.last
  obtain ⟨h₁, h₂, h₃, h₄⟩ := copyFields_at t.name.val (memberFieldPairs u.members os)
    (UnionPass.after scalarNames t.name.val (registerUnion t s₁) (u.members.map Name.val)
      (os.flatMap ObjectType.fields)).caches n
  rw [(hkf.fieldMaps n).1, (hkf.fieldMaps n).2.1, (hkf.fieldMaps n).2.2, hkf.objectFieldMappings,
    hr.unionStep hk hos, h₁, h₂, h₃, h₄, hp]
  exact ⟨rfl, rfl, rfl, _, rfl⟩

/-- `type A @entity { id: ID! x: UInt8! }`. -/
def sharedFieldA : TypeDefinition :=
  ParserTest.entity "A" [ParserTest.field "id" "ID", ParserTest.field "x" "UInt8"]

/-- `type B @entity { id: ID! x: Charfield }`. -/
def sharedFieldB : TypeDefinition :=
  ParserTest.entity "B" [ParserTest.field "id" "ID", ParserTest.field "x" "Charfield" true]

/-- `A`, `B` and `union U = A | B`: the two members declare the field `x` with
different types. -/
def sharedFieldSchema : ServiceDocument := injectNativeEntitiesIntoSchema ⟨[
  .type sharedFieldA, .type sharedFieldB, .type (ParserTest.union "U" [.ofLit "A", .ofLit "B"])]⟩

/-- On it, `U.x` is registered with `B`'s type and nullability, not with those
of `A`, the first member that has the field. -/
theorem sharedFieldSchema_lastOccurrence :
    ∃ m, ParsedGraphQLSchema.new ParserTest.scalarNames (some sharedFieldSchema) = .ok m ∧
      m.fieldTypeMappings "U.x" = some "Charfield" ∧
      m.fieldTypeOptionality "U.x" = some true ∧
      fieldTypeName (ParserTest.field "x" "UInt8") = "UInt8" :=
  ⟨_, rfl, by decide, by decide, by decide⟩

/-- The last occurrence on the same schema, derived from the general theorem. -/
theorem sharedFieldSchema_unionField :
    ∃ m, ParsedGraphQLSchema.new ParserTest.scalarNames (some sharedFieldSchema) = .ok m ∧
      m.fieldTypeMappings "U.x" = some "Charfield" ∧
      ((m.objectFieldMappings "U").bind fun mp => mp "x") = some "Charfield" ∧
      m.fieldTypeOptionality "U.x" = some true := by
  obtain ⟨m, hm⟩ : ∃ m, ParsedGraphQLSchema.new ParserTest.scalarNames
    (some sharedFieldSchema) = .ok m := ⟨_, rfl⟩
  have hos : List.Forall₂ (fun M o => ∃ t' ∈ sharedFieldSchema.typeDefinitions,
      t'.name = M ∧ t'.entityObject? = some o) [.ofLit "A", .ofLit "B"]
      [⟨[ParserTest.field "id" "ID", ParserTest.field "x" "UInt8"]⟩,
        ⟨[ParserTest.field "id" "ID", ParserTest.field "x" "Charfield" true]⟩] :=
    .cons ⟨sharedFieldA, by decide, rfl, rfl⟩ (.cons ⟨sharedFieldB, by decide, rfl, rfl⟩ .nil)
  obtain ⟨h₁, h₂, h₃, -⟩ := unionField_last_occurrence hm (by decide)
    (t := ParserTest.union "U" [.ofLit "A", .ofLit "B"]) (by decide) rfl hos (n := "x")
    (f := ParserTest.field "x" "Charfield" true) (by decide)
  exact ⟨m, hm, h₁, h₂, h₃⟩

/-! ## What an enum registers -/

/-- **An enum registers each value as a synonym field of the enum.**  For an
enum `t` of a document with distinct type names and any name `n`, the enum's
field id of `n` maps to the enum's name in `field_type_mappings`, and so does
`n` in `object_field_mappings[t]`, exactly when `n` is one of its values;
`field_defs` and `field_type_optionality` hold nothing there. -/
theorem enumValue_fields {scalarNames : Finset String} {doc : ServiceDocument}
    {m : ParsedGraphQLSchema} (h : ParsedGraphQLSchema.new scalarNames (some doc) = .ok m)
    (hnd : (declaredNames doc.definitions).Nodup) {t : TypeDefinition} {e : EnumType}
    (ht : t ∈ doc.typeDefinitions) (hk : t.kind = .enum e) (n : String) :
    let V := if n ∈ e.values.map Name.val then some t.name.val else none
    m.fieldTypeMappings (fieldId t.name.val n) = V ∧
      ((m.objectFieldMappings t.name.val).bind fun mp => mp n) = V ∧
      m.fieldDefs (fieldId t.name.val n) = none ∧
      m.fieldTypeOptionality (fieldId t.name.val n) = none := by
  obtain ⟨pre, post, hsplit⟩ := List.append_of_mem (mem_declaredTypes.1 ht)
  obtain ⟨s₁, s₂, hr⟩ := definitions_at scalarNames (ParsedGraphQLSchema.new_eq_ok h).1 hnd hsplit
  have hs₂ : s₂ = enumArm t e s₁ := by
    have hstep := hr.step
    simp only [definitionStep, hk] at hstep
    exact (Except.pure_eq_ok.1 hstep).symm
  have hkf₁ := hr.keyFrame_before hr.fresh
  have hkf := hr.keyFrame_after hr.last
  obtain ⟨k₁, k₂, k₃⟩ := hkf₁.fieldMaps n
  obtain ⟨e₁, e₂⟩ := enumValues_at t.name.val n e.values { s₁ with
    typeDefs := insertEntry s₁.typeDefs t.name.val t
    virtualTypeNames := insert t.name.val s₁.virtualTypeNames
    enumNames := insert t.name.val s₁.enumNames }
  rw [(hkf.fieldMaps n).1, (hkf.fieldMaps n).2.1, (hkf.fieldMaps n).2.2, hkf.objectFieldMappings,
    hs₂]
  refine ⟨e₁.trans ?_, e₂.trans ?_, ?_, ?_⟩
  · simp [k₂, Indices.empty]
  · simp [hkf₁.objectFieldMappings, Indices.empty]
  · rw [enumArm_eq, k₁]; rfl
  · rw [enumArm_eq, k₃]; rfl

/-- The parser test's enum `AccountLabel { PRIMARY SECONDARY }`: `PRIMARY` is
a synonym field typed by the enum, and `id` is no field of it. -/
theorem accountLabel_enumValues :
    ∃ m, ParsedGraphQLSchema.new ParserTest.scalarNames (some ParserTest.schema) = .ok m ∧
      m.fieldTypeMappings "AccountLabel.PRIMARY" = some "AccountLabel" ∧
      m.fieldTypeMappings "AccountLabel.id" = none ∧
      m.fieldDefs "AccountLabel.PRIMARY" = none := by
  obtain ⟨m, hm, -⟩ := ParserTest.new_schema
  have ht : ParserTest.enum "AccountLabel" [.ofLit "PRIMARY", .ofLit "SECONDARY"] ∈
      ParserTest.schema.typeDefinitions := by decide
  obtain ⟨hp, -, hd, -⟩ := enumValue_fields hm (by decide) ht rfl "PRIMARY"
  obtain ⟨hi, -⟩ := enumValue_fields hm (by decide) ht rfl "id"
  exact ⟨m, hm, hp.trans (by decide), hi.trans (by decide), hd⟩

end GraphQL
end FuelIndexer
