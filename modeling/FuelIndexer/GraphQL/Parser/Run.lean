import FuelIndexer.GraphQL.Parser.New

/-!
# Runs of the definition loop

A fact about the model `new` returns comes down to two questions: what the
step of one definition wrote, and whether the steps after it kept it.  The arm
lemmas answer the first; this file answers the second, once for all of them.

## One step

`StepFrame t s s'` collects what the step of the type definition `t` does to
the caches away from `t`'s own name, with the few facts about that name that
later steps read.  A step writes an object body only for an entity object, and
adds its name to `enum_names` or `union_names` only for its own kind.  Under
another name it changes only `join_table_meta`, and only by removing the
entries of a union's members, which must be parsed objects when it runs.
`definitionStep_frame` proves the frame for the three arms.  It needs the name
to be fresh in `objects`: the union arm's characterisation rests on the union
not being one of its own members.

## Whole runs

`Reach pre s` is the run invariant.  Every object body, enum name and union
name in the caches comes from a definition of `pre`, and every entity object
and union of `pre` is in `parsed_typedef_names`.  When the type names are
distinct, `Reach` makes every name fresh when its own step comes.
`definitions_preserves` then carries, across a whole run, any relation that
holds across the step frame of each of its definitions.

## Prefixes

`new_prefix`: `new` accepts every prefix of a document it accepts, and the
definitions after the prefix keep the frame of every name they do not declare,
so appending definitions to a schema leaves what its types registered.
-/

namespace FuelIndexer
namespace GraphQL

/-- What the step of the type definition `t` does to the caches `s`, giving
`s'`: everything away from `t`'s name, and what it records under that name
that later steps read. -/
structure StepFrame (t : TypeDefinition) (s s' : Indices) : Prop where
  objects_self : s'.objects t.name.val = t.entityObject?.or (s.objects t.name.val)
  objects : ∀ k ≠ t.name.val, s'.objects k = s.objects k
  enumNames : ∀ k, k ∈ s'.enumNames ↔ k ∈ s.enumNames ∨ k = t.name.val ∧ t.kind.isEnum
  unionNames : ∀ k, k ∈ s'.unionNames ↔ k ∈ s.unionNames ∨ k = t.name.val ∧ t.kind.isUnion
  virtualTypeNames : ∀ k ≠ t.name.val, k ∈ s'.virtualTypeNames ↔ k ∈ s.virtualTypeNames
  parsed : s.parsedTypedefNames ⊆ s'.parsedTypedefNames
  parsed_self : t.isParsedType → t.name.val ∈ s'.parsedTypedefNames
  objectFieldMappings : ∀ k ≠ t.name.val, s'.objectFieldMappings k = s.objectFieldMappings k
  fieldMaps : ∀ j, (∀ n, j ≠ fieldId t.name.val n) →
    s'.fieldDefs j = s.fieldDefs j ∧ s'.fieldTypeMappings j = s.fieldTypeMappings j ∧
      s'.fieldTypeOptionality j = s.fieldTypeOptionality j
  objectOrderedFields : ∀ k ≠ t.name.val, s'.objectOrderedFields k = s.objectOrderedFields k
  joinTableMeta : ∀ k ≠ t.name.val,
    s'.joinTableMeta k = if k ∈ t.memberNames then none else s.joinTableMeta k
  foreignKeyMappings : ∀ k ≠ toLowercase t.name.val,
    s'.foreignKeyMappings k = s.foreignKeyMappings k
  members : ∀ m ∈ t.memberNames, (s.objects m).isSome

/-- What the caches after the definitions `pre` owe to them. -/
structure Reach (pre : List TypeSystemDefinition) (s : Indices) : Prop where
  objects : ∀ k o, s.objects k = some o →
    ∃ t ∈ declaredTypes pre, t.name.val = k ∧ t.entityObject? = some o
  enumNames : ∀ k ∈ s.enumNames, ∃ t ∈ declaredTypes pre, t.name.val = k ∧ t.kind.isEnum
  unionNames : ∀ k ∈ s.unionNames, ∃ t ∈ declaredTypes pre, t.name.val = k ∧ t.kind.isUnion
  parsed : ∀ t ∈ declaredTypes pre, t.isParsedType → t.name.val ∈ s.parsedTypedefNames

namespace Indices

variable (scalarNames : Finset String)

/-! ## The loop -/

theorem definitions_append_eq_ok : ∀ {ds₁ ds₂ : List TypeSystemDefinition} {s s' : Indices},
    definitions scalarNames (ds₁ ++ ds₂) s = .ok s' ↔
      ∃ s₁, definitions scalarNames ds₁ s = .ok s₁ ∧ definitions scalarNames ds₂ s₁ = .ok s'
  | [], _, s, s' => by simp [definitions, Except.pure_eq_ok]
  | d :: ds₁, ds₂, s, s' => by
    show definitionStep scalarNames s d >>= definitions scalarNames (ds₁ ++ ds₂) = .ok s' ↔ _
    simp only [definitions, Except.bind_eq_ok, definitions_append_eq_ok]
    exact ⟨fun ⟨a, ha, s₁, h₁, h₂⟩ => ⟨s₁, ⟨a, ha, h₁⟩, h₂⟩,
      fun ⟨s₁, ⟨a, ha, h₁⟩, h₂⟩ => ⟨a, ha, s₁, h₁, h₂⟩⟩

/-- A run through the type definition `t` is a run through the definitions
before it, the step of `t`, and a run through the definitions after it. -/
theorem definitions_split {pre post : List TypeSystemDefinition} {t : TypeDefinition}
    {s s' : Indices} (h : definitions scalarNames (pre ++ .type t :: post) s = .ok s') :
    ∃ s₁ s₂, definitions scalarNames pre s = .ok s₁ ∧
      definitionStep scalarNames s₁ (.type t) = .ok s₂ ∧
      definitions scalarNames post s₂ = .ok s' := by
  obtain ⟨s₁, h₁, h⟩ := (definitions_append_eq_ok scalarNames).1 h
  obtain ⟨s₂, h₂, h⟩ := Except.bind_eq_ok.1 h
  exact ⟨s₁, s₂, h₁, h₂, h⟩

/-! ## The step frame of each arm -/

theorem objectArm_frame {t : TypeDefinition} {o : ObjectType} {s s' : Indices}
    (hk : t.kind = .object o) (he : t.isEntity = true)
    (h : objectArm scalarNames t o s = .ok s') : StepFrame t s s' := by
  obtain ⟨r, hr, rfl⟩ := objectArm_eq_ok scalarNames h
  have hr₁ := objectFields_eq scalarNames hr
  have hp := objectFields_parsed_mono scalarNames hr
  obtain ⟨L, hL, -⟩ := objectFields_joinTableMeta scalarNames hr
  have hT : t.entityObject? = some o := by simp [TypeDefinition.entityObject?, hk, he]
  have hm : t.memberNames = [] := by simp [TypeDefinition.memberNames, hk]
  exact {
    objects_self := by rw [hr₁]; simp [registerObject, hT]
    objects := fun k hk' => by rw [hr₁]; simp [registerObject, Function.update_noteq hk']
    enumNames := fun k => by rw [hr₁]; simp [registerObject, hk, TypeKind.isEnum]
    unionNames := fun k => by rw [hr₁]; simp [registerObject, hk, TypeKind.isUnion]
    virtualTypeNames := fun k hk' => by
      rw [objectFields_virtualTypeNames scalarNames hr]
      split_ifs <;> simp [registerObject, hk']
    parsed := subset_trans (Finset.subset_insert _ _) hp
    parsed_self := fun _ => hp (Finset.mem_insert_self _ _)
    objectFieldMappings := fun k hk' => by
      simp only [Function.update_noteq hk']; rw [hr₁]; rfl
    fieldMaps := fun j hj => by
      have h := objectFields_fieldMaps_of_ne scalarNames hj hr
      exact h
    objectOrderedFields := fun k hk' => by
      rw [objectFields_objectOrderedFields scalarNames hr, pushEntries_of_ne _ _ hk']; rfl
    joinTableMeta := fun k hk' => by rw [hL, pushEntries_of_ne _ _ hk', hm]; rfl
    foreignKeyMappings := fun k hk' => by
      have h := objectFields_foreignKeyMappings_of_ne scalarNames hk' hr
      exact h
    members := by simp [hm] }

theorem enumArm_frame {t : TypeDefinition} {e : EnumType} {s : Indices}
    (hk : t.kind = .enum e) : StepFrame t s (enumArm t e s) := by
  have hE := enumArm_eq t e s
  have hT : t.entityObject? = none := by simp [TypeDefinition.entityObject?, hk]
  have hm : t.memberNames = [] := by simp [TypeDefinition.memberNames, hk]
  exact {
    objects_self := by rw [hE]; simp [hT]
    objects := fun k _ => by rw [hE]
    enumNames := fun k => by rw [hE]; simp [hk, TypeKind.isEnum, or_comm]
    unionNames := fun k => by rw [hE]; simp [hk, TypeKind.isUnion]
    virtualTypeNames := fun k hk' => by rw [hE]; simp [hk']
    parsed := by rw [hE]
    parsed_self := fun h => by simp [TypeDefinition.isParsedType, hT, hk, TypeKind.isUnion] at h
    objectFieldMappings := fun k hk' => enumValues_objectFieldMappings_of_ne hk' _ _
    fieldMaps := fun j hj => ⟨by rw [hE], enumValues_fieldTypeMappings_of_ne hj _ _, by rw [hE]⟩
    objectOrderedFields := fun k _ => by rw [hE]
    joinTableMeta := fun k _ => by rw [hE]; simp [hm]
    foreignKeyMappings := fun k _ => by rw [hE]
    members := by simp [hm] }

theorem unionArm_frame {t : TypeDefinition} {u : UnionType} {s s' : Indices}
    (hk : t.kind = .union u) (hU : s.objects t.name.val = none)
    (h : unionArm scalarNames t u s = .ok s') : StepFrame t s s' := by
  obtain ⟨os, hos, rfl⟩ := unionArm_eq_ok scalarNames hU h
  have hT : t.entityObject? = none := by simp [TypeDefinition.entityObject?, hk]
  have hm : t.memberNames = u.members.map Name.val := by simp [TypeDefinition.memberNames, hk]
  rw [copyFields_eq]
  exact {
    objects_self := by simp [UnionPass.after, registerUnion, hT]
    objects := fun k _ => rfl
    enumNames := fun k => by simp [UnionPass.after, registerUnion, hk, TypeKind.isEnum]
    unionNames := fun k => by simp [UnionPass.after, registerUnion, hk, TypeKind.isUnion, or_comm]
    virtualTypeNames := fun k _ => Iff.rfl
    parsed := Finset.subset_insert _ _
    parsed_self := fun _ => Finset.mem_insert_self _ _
    objectFieldMappings := fun k hk' => copyFields_objectFieldMappings_of_ne t.name.val hk' _ _
    fieldMaps := fun j hj => copyFields_fieldMaps_of_ne t.name.val hj _ _
    objectOrderedFields := fun k _ => rfl
    joinTableMeta := fun k hk' => by
      simp only [UnionPass.after, pushEntries_of_ne _ _ hk', hm]; rfl
    foreignKeyMappings := fun k _ => rfl
    members := fun m hm' => by
      rw [hm, List.mem_map] at hm'
      obtain ⟨m, hmem, rfl⟩ := hm'
      exact forall₂_eq_some_isSome hos m hmem }

/-- **The step frame.**  The step of a type definition whose name is not yet an
object keeps its frame, whichever arm runs. -/
theorem definitionStep_frame {t : TypeDefinition} {s s' : Indices}
    (h : definitionStep scalarNames s (.type t) = .ok s') (hU : s.objects t.name.val = none) :
    StepFrame t s s' := by
  rw [definitionStep] at h
  split at h
  · rename_i o hk
    split at h
    · exact objectArm_frame scalarNames hk ‹_› h
    · cases h
      have hT : t.entityObject? = none := by simp [TypeDefinition.entityObject?, hk, *]
      have hm : t.memberNames = [] := by simp [TypeDefinition.memberNames, hk]
      exact {
        objects_self := by simp [hT]
        objects := fun _ _ => rfl
        enumNames := fun k => by simp [hk, TypeKind.isEnum]
        unionNames := fun k => by simp [hk, TypeKind.isUnion]
        virtualTypeNames := fun _ _ => Iff.rfl
        parsed := subset_rfl
        parsed_self := fun h => by simp [TypeDefinition.isParsedType, hT, hk, TypeKind.isUnion] at h
        objectFieldMappings := fun _ _ => rfl
        fieldMaps := fun _ _ => ⟨rfl, rfl, rfl⟩
        objectOrderedFields := fun _ _ => rfl
        joinTableMeta := fun _ _ => by simp [hm]
        foreignKeyMappings := fun _ _ => rfl
        members := by simp [hm] }
  · rename_i e hk
    cases h
    exact enumArm_frame hk
  · rename_i u hk
    exact unionArm_frame scalarNames hk hU h
  · cases h

end Indices

/-! ## The run invariant -/

namespace Reach

variable {pre : List TypeSystemDefinition} {s s' : Indices}

theorem empty : Reach [] Indices.empty where
  objects _ _ h := by cases h
  enumNames _ h := absurd h (Finset.not_mem_empty _)
  unionNames _ h := absurd h (Finset.not_mem_empty _)
  parsed _ h := absurd h (List.not_mem_nil _)

/-- The invariant reads `pre` only through its type definitions. -/
theorem of_declaredTypes_eq {pre' : List TypeSystemDefinition}
    (h : declaredTypes pre' = declaredTypes pre) (hR : Reach pre s) : Reach pre' s := by
  obtain ⟨ho, he, hu, hp⟩ := hR
  exact ⟨by rwa [h], by rwa [h], by rwa [h], by rwa [h]⟩

/-- A name no definition of `pre` declares is not an object after `pre`. -/
theorem objects_eq_none (hR : Reach pre s) {k : String} (hk : k ∉ declaredNames pre) :
    s.objects k = none := by
  cases ho : s.objects k with
  | none => rfl
  | some o =>
    obtain ⟨t, ht, rfl, -⟩ := hR.objects k o ho
    exact absurd (List.mem_map_of_mem _ ht) hk

/-- The step of a type definition keeps the run invariant. -/
theorem step {t : TypeDefinition} (hR : Reach pre s) (hf : StepFrame t s s') :
    Reach (pre ++ [.type t]) s' where
  objects k o ho := by
    simp only [declaredTypes_append, declaredTypes_cons, typeDefinition?_type, Option.toList_some,
      declaredTypes_nil, List.append_nil, List.mem_append, List.mem_singleton]
    by_cases hk : k = t.name.val
    · subst hk
      rw [hf.objects_self] at ho
      cases hT : t.entityObject? with
      | some o' =>
        rw [hT, Option.or_some] at ho
        exact ⟨t, .inr rfl, rfl, hT.trans ho⟩
      | none =>
        rw [hT, Option.none_or] at ho
        obtain ⟨t', ht', h⟩ := hR.objects _ _ ho
        exact ⟨t', .inl ht', h⟩
    · rw [hf.objects k hk] at ho
      obtain ⟨t', ht', h⟩ := hR.objects _ _ ho
      exact ⟨t', .inl ht', h⟩
  enumNames k hk := by
    simp only [declaredTypes_append, declaredTypes_cons, typeDefinition?_type, Option.toList_some,
      declaredTypes_nil, List.append_nil, List.mem_append, List.mem_singleton]
    rcases (hf.enumNames k).1 hk with hk | ⟨rfl, he⟩
    · obtain ⟨t', ht', h⟩ := hR.enumNames k hk
      exact ⟨t', .inl ht', h⟩
    · exact ⟨t, .inr rfl, rfl, he⟩
  unionNames k hk := by
    simp only [declaredTypes_append, declaredTypes_cons, typeDefinition?_type, Option.toList_some,
      declaredTypes_nil, List.append_nil, List.mem_append, List.mem_singleton]
    rcases (hf.unionNames k).1 hk with hk | ⟨rfl, hu⟩
    · obtain ⟨t', ht', h⟩ := hR.unionNames k hk
      exact ⟨t', .inl ht', h⟩
    · exact ⟨t, .inr rfl, rfl, hu⟩
  parsed t' ht' hp := by
    simp only [declaredTypes_append, declaredTypes_cons, typeDefinition?_type, Option.toList_some,
      declaredTypes_nil, List.append_nil, List.mem_append, List.mem_singleton] at ht'
    rcases ht' with ht' | rfl
    · exact hf.parsed (hR.parsed t' ht' hp)
    · exact hf.parsed_self hp

end Reach

/-! ## Whole runs -/

theorem nodup_declaredNames_split {pre post : List TypeSystemDefinition} {t : TypeDefinition}
    (h : (declaredNames (pre ++ .type t :: post)).Nodup) :
    t.name.val ∉ declaredNames pre ∧ t.name.val ∉ declaredNames post := by
  simp only [declaredNames, declaredTypes_append, declaredTypes_cons, typeDefinition?_type,
    Option.toList_some, List.singleton_append, List.map_append, List.map_cons,
    List.nodup_middle, List.nodup_cons, List.mem_append, not_or] at h
  exact h.1

theorem declaredNames_disjoint {pre post : List TypeSystemDefinition}
    (h : (declaredNames (pre ++ post)).Nodup) {k : String} (hk : k ∈ declaredNames pre) :
    k ∉ declaredNames post := by
  simp only [declaredNames, declaredTypes_append, List.map_append] at h
  exact List.disjoint_of_nodup_append h hk

namespace Indices

variable (scalarNames : Finset String) {P : Indices → Indices → Prop}

/-- **Induction over a run.**  A property `I` of the definitions processed so
far and the caches, kept by every definition the loop skips and by the step of
every type definition of the run, holds at the end of the run; the step sees
the run invariant and that the name it declares is fresh. -/
theorem definitions_induction {I : List TypeSystemDefinition → Indices → Prop}
    (hskip : ∀ p a d, d.typeDefinition? = none → I p a → I (p ++ [d]) a) :
    ∀ {ds pre : List TypeSystemDefinition} {s s' : Indices},
      (∀ t ∈ declaredTypes ds, ∀ p a b, Reach p a → t.name.val ∉ declaredNames p →
        definitionStep scalarNames a (.type t) = .ok b → StepFrame t a b → I p a →
          I (p ++ [.type t]) b) →
      definitions scalarNames ds s = .ok s' → Reach pre s → (declaredNames (pre ++ ds)).Nodup →
      I pre s → I (pre ++ ds) s' ∧ Reach (pre ++ ds) s'
  | [], pre, s, s', _, h, hR, _, hI => by cases h; simpa using ⟨hI, hR⟩
  | d :: ds, pre, s, s', hstep, h, hR, hnd, hI => by
    obtain ⟨s₁, h₁, h⟩ := Except.bind_eq_ok.1 h
    have hd : I (pre ++ [d]) s₁ ∧ Reach (pre ++ [d]) s₁ := by
      cases d with
      | type t =>
        have hT := (nodup_declaredNames_split hnd).1
        have hf := definitionStep_frame scalarNames h₁ (hR.objects_eq_none hT)
        exact ⟨hstep t (by simp) pre s s₁ hR hT h₁ hf hI, hR.step hf⟩
      | schema | directive =>
        cases h₁
        exact ⟨hskip _ _ _ rfl hI,
          hR.of_declaredTypes_eq (by simp [TypeSystemDefinition.typeDefinition?])⟩
    have := definitions_induction hskip (fun t ht => hstep t (by simp [ht])) h hd.2
      (by simpa using hnd) hd.1
    simpa using this

/-- A run keeps the run invariant. -/
theorem definitions_reach {ds pre : List TypeSystemDefinition} {s s' : Indices}
    (h : definitions scalarNames ds s = .ok s') (hR : Reach pre s)
    (hnd : (declaredNames (pre ++ ds)).Nodup) : Reach (pre ++ ds) s' :=
  (definitions_induction scalarNames (I := fun _ _ => True) (fun _ _ _ _ _ => trivial)
    (fun _ _ _ _ _ _ _ _ _ _ => trivial) h hR hnd trivial).2

/-- **A run keeps what every step frame keeps**: a reflexive and transitive
relation that holds across the step frame of every type definition of the run
relates its start and its end. -/
theorem definitions_preserves (hrefl : ∀ s, P s s) (htrans : ∀ {a b c}, P a b → P b c → P a c)
    {ds pre : List TypeSystemDefinition} {s s' : Indices}
    (hstep : ∀ t ∈ declaredTypes ds, ∀ {a b}, StepFrame t a b → P a b)
    (h : definitions scalarNames ds s = .ok s') (hR : Reach pre s)
    (hnd : (declaredNames (pre ++ ds)).Nodup) : P s s' :=
  (definitions_induction scalarNames (I := fun _ a => P s a) (fun _ _ _ _ h => h)
    (fun t ht _ _ _ _ _ _ hf hI => htrans hI (hstep t ht hf)) h hR hnd (hrefl s)).1

/-- **A run keeps what every step keeps**, on any document: a property of the
caches that every returning step preserves, from any caches, holds at the end
of every returning run. -/
theorem definitions_invariant {I : Indices → Prop}
    (hstep : ∀ {a b : Indices} (d : TypeSystemDefinition),
      definitionStep scalarNames a d = .ok b → I a → I b) :
    ∀ {ds : List TypeSystemDefinition} {s s' : Indices},
      definitions scalarNames ds s = .ok s' → I s → I s'
  | [], _, _, h, hI => by cases h; exact hI
  | d :: _, _, _, h, hI => by
    obtain ⟨s₁, h₁, h⟩ := Except.bind_eq_ok.1 h
    exact definitions_invariant hstep h (hstep d h₁ hI)

end Indices

/-! ## What a run keeps at a name it does not declare -/

/-- What a run whose definitions do not declare the name `K` keeps under it. -/
structure KeyFrame (K : Name) (s s' : Indices) : Prop where
  objects : s'.objects K.val = s.objects K.val
  enumNames : K.val ∈ s'.enumNames ↔ K.val ∈ s.enumNames
  unionNames : K.val ∈ s'.unionNames ↔ K.val ∈ s.unionNames
  virtualTypeNames : K.val ∈ s'.virtualTypeNames ↔ K.val ∈ s.virtualTypeNames
  objectFieldMappings : s'.objectFieldMappings K.val = s.objectFieldMappings K.val
  objectOrderedFields : s'.objectOrderedFields K.val = s.objectOrderedFields K.val
  fieldMaps : ∀ n, s'.fieldDefs (fieldId K.val n) = s.fieldDefs (fieldId K.val n) ∧
    s'.fieldTypeMappings (fieldId K.val n) = s.fieldTypeMappings (fieldId K.val n) ∧
    s'.fieldTypeOptionality (fieldId K.val n) = s.fieldTypeOptionality (fieldId K.val n)
  joinTableMeta : s'.joinTableMeta K.val = s.joinTableMeta K.val ∨ s'.joinTableMeta K.val = none
  joinTableMeta_of_objects : s.objects K.val = none →
    s'.joinTableMeta K.val = s.joinTableMeta K.val

namespace KeyFrame

variable {K : Name} {a b c : Indices}

theorem refl (s : Indices) : KeyFrame K s s :=
  ⟨rfl, Iff.rfl, Iff.rfl, Iff.rfl, rfl, rfl, fun _ => ⟨rfl, rfl, rfl⟩, .inl rfl, fun _ => rfl⟩

theorem trans (h₁ : KeyFrame K a b) (h₂ : KeyFrame K b c) : KeyFrame K a c where
  objects := h₂.objects.trans h₁.objects
  enumNames := h₂.enumNames.trans h₁.enumNames
  unionNames := h₂.unionNames.trans h₁.unionNames
  virtualTypeNames := h₂.virtualTypeNames.trans h₁.virtualTypeNames
  objectFieldMappings := h₂.objectFieldMappings.trans h₁.objectFieldMappings
  objectOrderedFields := h₂.objectOrderedFields.trans h₁.objectOrderedFields
  fieldMaps n := by rw [(h₂.fieldMaps n).1, (h₂.fieldMaps n).2.1, (h₂.fieldMaps n).2.2,
    (h₁.fieldMaps n).1, (h₁.fieldMaps n).2.1, (h₁.fieldMaps n).2.2]; exact ⟨rfl, rfl, rfl⟩
  joinTableMeta := by
    rcases h₂.joinTableMeta with h | h
    · rw [h]; exact h₁.joinTableMeta
    · exact .inr h
  joinTableMeta_of_objects ho := by
    rw [h₂.joinTableMeta_of_objects (h₁.objects.trans ho), h₁.joinTableMeta_of_objects ho]

/-- The step of another name keeps the frame of `K`. -/
theorem of_stepFrame {t : TypeDefinition} (hK : t.name ≠ K) (hf : StepFrame t a b) :
    KeyFrame K a b where
  objects := hf.objects _ (fun h => hK (Name.ext h.symm))
  enumNames := by
    rw [hf.enumNames]
    exact or_iff_left fun h => hK (Name.ext h.1.symm)
  unionNames := by
    rw [hf.unionNames]
    exact or_iff_left fun h => hK (Name.ext h.1.symm)
  virtualTypeNames := hf.virtualTypeNames _ (fun h => hK (Name.ext h.symm))
  objectFieldMappings := hf.objectFieldMappings _ (fun h => hK (Name.ext h.symm))
  objectOrderedFields := hf.objectOrderedFields _ (fun h => hK (Name.ext h.symm))
  fieldMaps n := hf.fieldMaps _ fun n' h => hK (fieldId_name_inj.1 h).1.symm
  joinTableMeta := by
    rw [hf.joinTableMeta _ (fun h => hK (Name.ext h.symm))]
    split_ifs
    · exact .inr rfl
    · exact .inl rfl
  joinTableMeta_of_objects ho := by
    rw [hf.joinTableMeta _ (fun h => hK (Name.ext h.symm)), if_neg]
    intro hm
    have := hf.members _ hm
    rw [ho] at this
    cases this

end KeyFrame

namespace Indices

variable (scalarNames : Finset String) {pre ds : List TypeSystemDefinition} {s s' : Indices}

/-- **A run keeps the frame of every name it does not declare.** -/
theorem definitions_keyFrame {K : Name} (hK : K.val ∉ declaredNames ds)
    (h : definitions scalarNames ds s = .ok s') (hR : Reach pre s)
    (hnd : (declaredNames (pre ++ ds)).Nodup) : KeyFrame K s s' :=
  definitions_preserves scalarNames KeyFrame.refl KeyFrame.trans
    (fun t ht _ _ hf => KeyFrame.of_stepFrame
      (fun he => hK (List.mem_map.2 ⟨t, ht, congrArg Name.val he⟩)) hf) h hR hnd

theorem definitions_parsed_mono (h : definitions scalarNames ds s = .ok s') (hR : Reach pre s)
    (hnd : (declaredNames (pre ++ ds)).Nodup) :
    s.parsedTypedefNames ⊆ s'.parsedTypedefNames :=
  definitions_preserves scalarNames (P := fun a b => a.parsedTypedefNames ⊆ b.parsedTypedefNames)
    (fun _ => subset_rfl) (fun h₁ h₂ => subset_trans h₁ h₂) (fun _ _ _ _ hf => hf.parsed) h hR hnd

/-- A run keeps the `join_table_meta` entry of a name it neither declares nor
lists as a union member. -/
theorem definitions_joinTableMeta_of_not_member {k : String} (hk : k ∉ declaredNames ds)
    (hm : ∀ t ∈ declaredTypes ds, k ∉ t.memberNames)
    (h : definitions scalarNames ds s = .ok s') (hR : Reach pre s)
    (hnd : (declaredNames (pre ++ ds)).Nodup) :
    s'.joinTableMeta k = s.joinTableMeta k :=
  definitions_preserves scalarNames (P := fun a b => b.joinTableMeta k = a.joinTableMeta k)
    (fun _ => rfl) (fun h₁ h₂ => h₂.trans h₁)
    (fun t ht _ _ hf => by
      show _ = _
      rw [hf.joinTableMeta _ (fun he => hk (List.mem_map.2 ⟨t, ht, he.symm⟩)),
        if_neg (hm t ht)]) h hR hnd

theorem mem_declaredTypes {ds : List TypeSystemDefinition} {t : TypeDefinition} :
    t ∈ declaredTypes ds ↔ .type t ∈ ds := by
  refine ⟨fun h => ?_, fun h => List.mem_filterMap.2 ⟨_, h, rfl⟩⟩
  obtain ⟨d, hd, ht⟩ := List.mem_filterMap.1 h
  cases d <;> cases ht
  exact hd

/-- A run of the definition loop from empty caches to `s'`, cut at the type
definition `t` that stands between the definitions `pre` and `post`: `s₁` are
the caches before its step and `s₂` the caches after it. -/
structure RunAt (pre post : List TypeSystemDefinition) (t : TypeDefinition)
    (s₁ s₂ s' : Indices) : Prop where
  before : definitions scalarNames pre Indices.empty = .ok s₁
  reach_before : Reach pre s₁
  step : definitionStep scalarNames s₁ (.type t) = .ok s₂
  frame : StepFrame t s₁ s₂
  after : definitions scalarNames post s₂ = .ok s'
  reach_after : Reach (pre ++ [.type t]) s₂
  nodup : (declaredNames (pre ++ [.type t] ++ post)).Nodup
  fresh : t.name.val ∉ declaredNames pre
  last : t.name.val ∉ declaredNames post

/-- **A run cut at one of its type definitions.**  With the names of the
document distinct, a run from empty caches through `t` is a `RunAt`. -/
theorem definitions_at {ds pre post : List TypeSystemDefinition} {t : TypeDefinition}
    {s' : Indices} (h : definitions scalarNames ds Indices.empty = .ok s')
    (hnd : (declaredNames ds).Nodup) (hsplit : ds = pre ++ .type t :: post) :
    ∃ s₁ s₂, RunAt scalarNames pre post t s₁ s₂ s' := by
  subst hsplit
  obtain ⟨s₁, s₂, h₁, h₂, h₃⟩ := definitions_split scalarNames h
  have hR₁ : Reach pre s₁ := by
    simpa using definitions_reach scalarNames h₁ Reach.empty
      (List.Nodup.sublist (by simp [declaredNames]) hnd)
  have hfresh := nodup_declaredNames_split hnd
  have hf := definitionStep_frame scalarNames h₂ (hR₁.objects_eq_none hfresh.1)
  exact ⟨s₁, s₂, h₁, hR₁, h₂, hf, h₃, hR₁.step hf, by simpa using hnd, hfresh.1, hfresh.2⟩

namespace RunAt

variable {scalarNames} {pre post : List TypeSystemDefinition} {t : TypeDefinition}
  {s₁ s₂ s' : Indices} (hr : RunAt scalarNames pre post t s₁ s₂ s')
include hr

/-- A name declared before `t` is not declared after it. -/
theorem not_mem_post {k : String} (hk : k ∈ declaredNames pre) : k ∉ declaredNames post :=
  declaredNames_disjoint hr.nodup (by rw [declaredNames_append]; exact List.mem_append_left _ hk)

/-- Under a name the definitions before `t` do not declare, the caches
before its step are as empty as at the start. -/
theorem keyFrame_before {K : Name} (hK : K.val ∉ declaredNames pre) :
    KeyFrame K Indices.empty s₁ :=
  definitions_keyFrame scalarNames hK hr.before Reach.empty
    (List.Nodup.sublist (by simp) hr.nodup)

/-- Under a name the definitions after `t` do not declare, the end of the run
is as the step of `t` left it. -/
theorem keyFrame_after {K : Name} (hK : K.val ∉ declaredNames post) : KeyFrame K s₂ s' :=
  definitions_keyFrame scalarNames hK hr.after hr.reach_after hr.nodup

theorem parsed_after : s₂.parsedTypedefNames ⊆ s'.parsedTypedefNames :=
  definitions_parsed_mono scalarNames hr.after hr.reach_after hr.nodup

/-- **The names a step can rely on.**  A name that is `t`'s own, or that of an
entity object or union declared before `t`, is parsed once the step of the
entity object or union `t` has registered `t`, is no enum name after it, and is
not declared after `t`. -/
theorem earlier (hp : t.isParsedType = true) {N : String}
    (hN : N = t.name.val ∨ ∃ t' ∈ declaredTypes pre, t'.name.val = N ∧ t'.isParsedType) :
    N ∈ insert t.name.val s₁.parsedTypedefNames ∧ N ∉ s₂.enumNames ∧ N ∉ declaredNames post := by
  have hnd : (declaredNames pre).Nodup := List.Nodup.sublist (by simp) hr.nodup
  refine ⟨?_, ?_, ?_⟩
  · rcases hN with rfl | ⟨t', ht', rfl, hp'⟩
    · exact Finset.mem_insert_self _ _
    · exact Finset.mem_insert_of_mem (hr.reach_before.parsed t' ht' hp')
  · rw [hr.frame.enumNames, TypeDefinition.isEnum_eq_false_of_isParsedType hp]
    rintro (he | ⟨-, he⟩)
    · obtain ⟨t'', ht'', hname, hen⟩ := hr.reach_before.enumNames N he
      rcases hN with rfl | ⟨t', ht', hname', hp'⟩
      · exact hr.fresh (List.mem_map.2 ⟨t'', ht'', hname⟩)
      · have := List.inj_on_of_nodup_map hnd ht'' ht' (hname.trans hname'.symm)
        subst this
        rw [TypeDefinition.isEnum_eq_false_of_isParsedType hp'] at hen
        cases hen
    · cases he
  · rcases hN with rfl | ⟨t', ht', rfl, -⟩
    · exact hr.last
    · exact hr.not_mem_post (List.mem_map.2 ⟨t', ht', rfl⟩)

/-- Whether a name not declared after `t`, and no enum name after `t`'s step,
is virtual on the final caches is whether it is after that step. -/
theorem virtual_after {N : Name} (hN : N.val ∉ declaredNames post)
    (he : N.val ∉ s₂.enumNames) :
    N.val ∈ s'.virtualTypeNames ∧ N.val ∉ s'.enumNames ↔ N.val ∈ s₂.virtualTypeNames := by
  have hkf := hr.keyFrame_after hN
  rw [hkf.virtualTypeNames, hkf.enumNames]
  exact and_iff_left he

/-- **The step of a union in a run.**  Its members' bodies are those of the
entity objects of the run that carry their names, and the step is the union
arm's characterisation on them. -/
theorem unionStep {u : UnionType} (hk : t.kind = .union u) {os : List ObjectType}
    (hos : List.Forall₂ (fun M o => ∃ t' ∈ declaredTypes (pre ++ .type t :: post),
      t'.name = M ∧ t'.entityObject? = some o) u.members os) :
    s₂ = copyFields t.name.val (memberFieldPairs u.members os)
      (UnionPass.after scalarNames t.name.val (registerUnion t s₁) (u.members.map Name.val)
        (os.flatMap ObjectType.fields)).caches := by
  have hstep := hr.step
  simp only [definitionStep, hk] at hstep
  obtain ⟨os', hos', rfl⟩ := unionArm_eq_ok scalarNames (hr.reach_before.objects_eq_none hr.fresh)
    hstep
  have hnd := hr.nodup
  rw [List.append_assoc, List.singleton_append] at hnd
  rw [Indices.forall₂_unique (fun M o' o ho' ho => ?_) hos' hos]
  obtain ⟨t'', ht'', hname, hbody⟩ := hr.reach_before.objects _ _ ho'
  obtain ⟨t', ht', rfl, hbody'⟩ := ho
  have := List.inj_on_of_nodup_map hnd (by simp [ht'']) ht' hname
  subst this
  exact Option.some.inj (hbody.symm.trans hbody')

end RunAt

/-- The step of an entity object is the object arm. -/
theorem definitionStep_of_entityObject {t : TypeDefinition} {o : ObjectType} {s : Indices}
    (hT : t.entityObject? = some o) :
    definitionStep scalarNames s (.type t) = objectArm scalarNames t o s := by
  unfold TypeDefinition.entityObject? at hT
  split at hT
  · rename_i o' hk
    split at hT
    · cases hT
      simp [definitionStep, hk, *]
    · cases hT
  · cases hT

variable {scalarNames} in
/-- The ordered fields of an entity object at the end of a run cut at it: its
fields with their positions. -/
theorem RunAt.objectOrderedFields_eq {pre post : List TypeSystemDefinition} {t : TypeDefinition}
    {o : ObjectType} {s₁ s₂ s' : Indices} (hr : RunAt scalarNames pre post t s₁ s₂ s')
    (hT : t.entityObject? = some o) :
    (s'.objectOrderedFields t.name.val).getD [] = o.fields.enum.map fun e => ⟨e.2, e.1⟩ := by
  have hstep := hr.step
  rw [definitionStep_of_entityObject scalarNames hT] at hstep
  rw [(hr.keyFrame_after hr.last).objectOrderedFields, objectArm_objectOrderedFields scalarNames
    hstep (by rw [(hr.keyFrame_before hr.fresh).objectOrderedFields]; rfl)]

end Indices

namespace ParsedGraphQLSchema

/-- `new` on a document returns the caches of the definition loop from empty
caches, with the scalar names it was given. -/
theorem new_eq_ok {scalarNames : Finset String} {doc : ServiceDocument}
    {m : ParsedGraphQLSchema} (h : new scalarNames (some doc) = .ok m) :
    Indices.definitions scalarNames doc.definitions Indices.empty = .ok m.toIndices ∧
      m.scalarNames = scalarNames := by
  obtain ⟨s, hs, h⟩ := Except.bind_eq_ok.1 h
  cases Except.pure_eq_ok.1 h
  exact ⟨hs, rfl⟩

/-- **A document's prefixes are accepted, and the definitions after a prefix
keep what its names registered.**  When `new` accepts a document with distinct
type names, it accepts the document cut after any of its definitions, and
under every name that the rest does not declare the two models have the same
object body, enum, union and virtual marks, `object_field_mappings`,
`object_ordered_fields` and field maps at its field ids; the name's
`join_table_meta` is kept or removed, and kept when it names no object. -/
theorem new_prefix {scalarNames : Finset String} {ds ext : List TypeSystemDefinition}
    {m' : ParsedGraphQLSchema} (h : new scalarNames (some ⟨ds ++ ext⟩) = .ok m')
    (hnd : (declaredNames (ds ++ ext)).Nodup) :
    ∃ m, new scalarNames (some ⟨ds⟩) = .ok m ∧
      ∀ K : Name, K.val ∉ declaredNames ext → KeyFrame K m.toIndices m'.toIndices := by
  obtain ⟨s₁, h₁, h₂⟩ := (Indices.definitions_append_eq_ok scalarNames).1 (new_eq_ok h).1
  have hR : Reach ds s₁ := by
    simpa using Indices.definitions_reach scalarNames h₁ Reach.empty
      (by simpa using (List.nodup_append.1 (by simpa using hnd)).1)
  refine ⟨{ s₁ with scalarNames, typedefNamesToTypes := typedefNamesToTypesOf s₁.typeDefs },
    by simp [new, h₁], fun K hK => Indices.definitions_keyFrame scalarNames hK h₂ hR hnd⟩

end ParsedGraphQLSchema

/-- `type Account @entity { id: ID! }`. -/
def accountDefinition : TypeSystemDefinition :=
  .type (ParserTest.entity "Account" [ParserTest.field "id" "ID"])

/-- `Account`, then `Wallet` with its list of accounts: `Account` keeps what it
registered once `Wallet` is appended. -/
theorem account_wallet_prefix :
    ∃ m m', ParsedGraphQLSchema.new ParserTest.scalarNames (some ⟨[accountDefinition]⟩) = .ok m ∧
      ParsedGraphQLSchema.new ParserTest.scalarNames
        (some ⟨[accountDefinition] ++ [.type ParserTest.wallet]⟩) = .ok m' ∧
      KeyFrame (.ofLit "Account") m.toIndices m'.toIndices := by
  obtain ⟨m', hm'⟩ : ∃ m', ParsedGraphQLSchema.new ParserTest.scalarNames
      (some ⟨[accountDefinition] ++ [TypeSystemDefinition.type ParserTest.wallet]⟩) = .ok m' :=
    ⟨_, rfl⟩
  obtain ⟨m, hm, hK⟩ := ParsedGraphQLSchema.new_prefix hm' (by decide)
  exact ⟨m, m', hm, hm', hK _ (by decide)⟩

end GraphQL
end FuelIndexer
