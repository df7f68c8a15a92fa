import FuelIndexer.GraphQL.Parser.FieldIndex
import FuelIndexer.GraphQL.Parser.Errors

/-!
# The field maps, without the loop

`FieldIndex` shows that the four field maps agree with each other, and its
theorems on the three arms say what an entity object, an enum and a union
register at their own field ids.  None of them says what the maps hold as a
whole: an entry under a key that no arm should write, or a union whose member
bodies came from caches that a later step changed, would slip past all of
them.  This file reads the maps off the document alone, with a description
complete enough to determine them.

## The description

`TypeDefinition.fieldPairs objs t` are the fields the step of `t` registers
under its own name, each with the entity object that declares it: an entity
object's own fields, and a union's member fields in member order, the members'
bodies taken from `objs`.  `FieldsAt objs t s` says that the maps of `s` hold
at `t`'s name what those fields (or an enum's values) make of them, the last
field of each name winning.  `FieldMapsSpec ts s` asks it of every definition
of `ts`, with the entity objects of `ts` as the members' bodies, asks that
every union member be one of them, and asks for nothing under any other key.

## Results

* `definitionStep_fieldsAt`: each arm, from caches with nothing under its
  name, leaves `FieldsAt` there.
* `new_fieldMapsSpec`: the maps `new` returns meet the description of the
  document's type definitions, when their names are distinct.
* `FieldMapsSpec.fieldMaps_eq`: the description determines the maps, as
  `field_type` and the getters read them (`Indices.fieldMaps`).
* `new_fieldMaps_perm`: reordering the declarations changes neither the field
  maps nor the list caches.
* `unionField_merge`: on the maps `new` returns, a union's entry for a field
  name is the entry of its last member that has a field of that name.

## Outside the description

* `redeclaredObject_staleFields`: `new` has no check against an entity object
  declared twice, as when a schema declares its own `IndexMetadataEntity`: the
  second declaration is accepted when it has no `@join` field, and the first
  object's fields stay in the maps keyed by field id but not in
  `object_field_mappings`.
* `graphqlType_wrappedParent`: on any document, `object_field_mappings` is
  keyed by names only, so a lookup under a wrapped parent such as `[Wallet!]!`
  falls back to its base name.
-/

namespace FuelIndexer
namespace GraphQL

open Indices

/-! ## What one definition registers -/

/-- The fields of the entity object named `M`, each with `M`, when `objs` gives
the bodies of the entity objects. -/
def memberFields (objs : String → Option ObjectType) (M : Name) : List (String × FieldDefinition) :=
  (((objs M.val).map ObjectType.fields).getD []).map fun f => (M.val, f)

theorem memberFields_of_eq_some {objs : String → Option ObjectType} {M : Name} {o : ObjectType}
    (h : objs M.val = some o) : memberFields objs M = o.fields.map fun f => (M.val, f) := by
  simp [memberFields, h]

/-- The fields the step of `t` registers under its own field ids, each with the
name of the entity object that declares it, when `objs` gives the bodies of the
entity objects: an entity object's fields, and the fields of a union's members
in member order. -/
def TypeDefinition.fieldPairs (objs : String → Option ObjectType) (t : TypeDefinition) :
    List (String × FieldDefinition) :=
  match t.kind with
  | .object o => if t.isEntity then o.fields.map fun f => (t.name.val, f) else []
  | .union u => u.members.flatMap (memberFields objs)
  | _ => []

/-- The type name the step of `t` registers for the field name `n`: an enum's
own name when `n` is one of its values; otherwise the type of the last field
named `n` that the step registers. -/
def TypeDefinition.fieldTypeAt (objs : String → Option ObjectType) (t : TypeDefinition)
    (n : String) : Option String :=
  match t.kind with
  | .enum e => if n ∈ e.values.map Name.val then some t.name.val else none
  | _ => (lastFieldNamed (t.fieldPairs objs) n).map fun p => fieldTypeName p.2

/-- The ordered fields the step of `t` records: an entity object's fields with
their positions. -/
def TypeDefinition.orderedFields (t : TypeDefinition) : List OrderedField :=
  match t.entityObject? with
  | some o => o.fields.enum.map fun e => ⟨e.2, e.1⟩
  | none => []

theorem TypeDefinition.fieldTypeAt_of_not_enum {objs : String → Option ObjectType}
    {t : TypeDefinition} (hE : t.kind.isEnum = false) (n : String) :
    t.fieldTypeAt objs n =
      (lastFieldNamed (t.fieldPairs objs) n).map fun p => fieldTypeName p.2 := by
  unfold TypeDefinition.fieldTypeAt
  split
  · rename_i hk
    simp [hk, TypeKind.isEnum] at hE
  · rfl

theorem lastFieldNamed_nil (n : String) : lastFieldNamed [] n = none := rfl

theorem lastFieldNamed_append (ps qs : List (String × FieldDefinition)) (n : String) :
    lastFieldNamed (ps ++ qs) n = (lastFieldNamed qs n).or (lastFieldNamed ps n) := by
  simp only [lastFieldNamed, List.filter_append, List.getLast?_append]

/-- The last field of a name among several types' fields is the last of the
types' own last fields of that name. -/
theorem lastFieldNamed_flatMap {α : Type} (g : α → List (String × FieldDefinition)) (n : String) :
    ∀ l : List α, lastFieldNamed (l.flatMap g) n =
      (l.filterMap fun x => lastFieldNamed (g x) n).getLast?
  | [] => rfl
  | x :: l => by
    rw [List.flatMap_cons, lastFieldNamed_append, lastFieldNamed_flatMap g n l, List.filterMap_cons]
    cases lastFieldNamed (g x) n with
    | none => simp
    | some p => cases h : (l.filterMap fun x => lastFieldNamed (g x) n).getLast? <;>
        simp [List.getLast?_cons, h]

/-! ## The maps at one name -/

/-- The field maps of `s` hold at the name of `t` what the step of `t`
registers, with `objs` as the bodies of the entity objects. -/
structure FieldsAt (objs : String → Option ObjectType) (t : TypeDefinition) (s : Indices) :
    Prop where
  fieldDefs : ∀ n, s.fieldDefs (fieldId t.name.val n) =
    (lastFieldNamed (t.fieldPairs objs) n).map fun p => (p.2, p.1)
  fieldTypeMappings : ∀ n, s.fieldTypeMappings (fieldId t.name.val n) = t.fieldTypeAt objs n
  fieldTypeOptionality : ∀ n, s.fieldTypeOptionality (fieldId t.name.val n) =
    (lastFieldNamed (t.fieldPairs objs) n).map fun p => p.2.ty.nullable
  objectFieldMappings : ∀ n,
    ((s.objectFieldMappings t.name.val).bind fun mp => mp n) = t.fieldTypeAt objs n
  objectOrderedFields : (s.objectOrderedFields t.name.val).getD [] = t.orderedFields

namespace FieldsAt

variable {objs : String → Option ObjectType} {t : TypeDefinition} {a b : Indices}

/-- Steps that keep the frame of `t`'s name keep what it registered. -/
theorem of_keyFrame (h : FieldsAt objs t a) (hk : KeyFrame t.name a b) : FieldsAt objs t b where
  fieldDefs n := (hk.fieldMaps n).1.trans (h.fieldDefs n)
  fieldTypeMappings n := (hk.fieldMaps n).2.1.trans (h.fieldTypeMappings n)
  fieldTypeOptionality n := (hk.fieldMaps n).2.2.trans (h.fieldTypeOptionality n)
  objectFieldMappings n := hk.objectFieldMappings ▸ h.objectFieldMappings n
  objectOrderedFields := hk.objectOrderedFields ▸ h.objectOrderedFields

/-- A step that writes the last field of each name of `t.fieldPairs objs`
under `t`'s field ids, from caches as empty there as at the start, registers
what the description says, for a definition that is no enum. -/
theorem of_writesLast (hE : t.kind.isEnum = false)
    (hw : WritesLast t.name.val (t.fieldPairs objs) a b) (hfr : KeyFrame t.name Indices.empty a)
    (hord : (b.objectOrderedFields t.name.val).getD [] = t.orderedFields) : FieldsAt objs t b where
  fieldDefs n := by rw [(hw n).1, (hfr.fieldMaps n).1]; exact Option.or_none
  fieldTypeMappings n := by
    rw [(hw n).2.1, (hfr.fieldMaps n).2.1, TypeDefinition.fieldTypeAt_of_not_enum hE]
    exact Option.or_none
  fieldTypeOptionality n := by rw [(hw n).2.2.1, (hfr.fieldMaps n).2.2]; exact Option.or_none
  objectFieldMappings n := by
    rw [(hw n).2.2.2, hfr.objectFieldMappings, TypeDefinition.fieldTypeAt_of_not_enum hE]
    exact Option.or_none
  objectOrderedFields := hord

end FieldsAt

/-- The union's member fields, once every member has a body in `objs`. -/
theorem memberFieldPairs_eq_fieldPairs {objs : String → Option ObjectType} :
    ∀ {ms : List Name} {os : List ObjectType}, List.Forall₂ (fun M o => objs M.val = some o) ms os →
      memberFieldPairs ms os = ms.flatMap (memberFields objs)
  | [], [], .nil => rfl
  | M :: _, o :: _, .cons ho hos => by
    show (o.fields.map fun f => (M.val, f)) ++ memberFieldPairs _ _ = _
    rw [memberFieldPairs_eq_fieldPairs hos, List.flatMap_cons, memberFields_of_eq_some ho]

section Step

variable (scalarNames : Finset String) {objs : String → Option ObjectType} {t : TypeDefinition}
  {a b : Indices}

/-- **Each arm registers what the description says** under its own name, from
caches as empty there as at the start, and with `objs` giving every object the
caches hold. -/
theorem definitionStep_fieldsAt (h : definitionStep scalarNames a (.type t) = .ok b)
    (hfr : KeyFrame t.name Indices.empty a)
    (hobjs : ∀ M o, a.objects M = some o → objs M = some o) : FieldsAt objs t b := by
  have hord : (a.objectOrderedFields t.name.val).getD [] = [] := by
    rw [hfr.objectOrderedFields]; rfl
  rw [definitionStep] at h
  split at h
  · rename_i o hk
    have hE : t.kind.isEnum = false := by simp [hk, TypeKind.isEnum]
    split at h
    · rename_i he
      have hp : t.fieldPairs objs = o.fields.map fun f => (t.name.val, f) := by
        simp [TypeDefinition.fieldPairs, hk, he]
      refine .of_writesLast hE
        (hp ▸ objectArm_writesLast scalarNames h hfr.objectFieldMappings) hfr ?_
      rw [objectArm_objectOrderedFields scalarNames h hfr.objectOrderedFields]
      simp [TypeDefinition.orderedFields, TypeDefinition.entityObject?, hk, he]
    · cases h
      have hp : t.fieldPairs objs = [] := by simp [TypeDefinition.fieldPairs, hk, *]
      refine .of_writesLast hE (fun n => by simp [hp, lastFieldNamed_nil]) hfr ?_
      rw [hord]
      simp [TypeDefinition.orderedFields, TypeDefinition.entityObject?, hk, *]
  · rename_i e hk
    cases h
    have hp : t.fieldPairs objs = [] := by simp [TypeDefinition.fieldPairs, hk]
    have hT n : t.fieldTypeAt objs n = if n ∈ e.values.map Name.val then some t.name.val
        else none := by simp [TypeDefinition.fieldTypeAt, hk]
    have hv n := enumValues_at t.name.val n e.values { a with
      typeDefs := insertEntry a.typeDefs t.name.val t
      virtualTypeNames := insert t.name.val a.virtualTypeNames
      enumNames := insert t.name.val a.enumNames }
    refine ⟨fun n => ?_, fun n => ?_, fun n => ?_, fun n => ?_, ?_⟩
    · rw [enumArm_eq, hp, (hfr.fieldMaps n).1]; rfl
    · rw [hT]
      exact (hv n).1.trans (by rw [(hfr.fieldMaps n).2.1]; rfl)
    · rw [enumArm_eq, hp, (hfr.fieldMaps n).2.2]; rfl
    · rw [hT]
      exact (hv n).2.trans (by rw [hfr.objectFieldMappings]; rfl)
    · rw [enumArm_eq]
      simpa [TypeDefinition.orderedFields, TypeDefinition.entityObject?, hk] using hord
  · rename_i u hk
    obtain ⟨os, hos, rfl⟩ := unionArm_eq_ok scalarNames (hfr.objects.trans rfl) h
    have hp : t.fieldPairs objs = memberFieldPairs u.members os := by
      rw [memberFieldPairs_eq_fieldPairs (hos.imp fun (M : Name) o => hobjs M.val o)]
      simp [TypeDefinition.fieldPairs, hk]
    refine .of_writesLast (by simp [hk, TypeKind.isEnum]) (hp ▸ copyFields_at _ _ _) hfr ?_
    rw [copyFields_eq]
    simpa [TypeDefinition.orderedFields, TypeDefinition.entityObject?, hk] using hord
  · cases h

end Step

/-! ## The description of a document -/

/-- With distinct names, the entity objects the description reads are those of
`ts`, -/
theorem NameCaches.ofTypes_objects_of_mem {ts : List TypeDefinition}
    (hnd : (ts.map fun t => t.name.val).Nodup) {t : TypeDefinition} (ht : t ∈ ts) {o : ObjectType}
    (hT : t.entityObject? = some o) : (NameCaches.ofTypes ts).objects t.name.val = some o := by
  have hmem :
      o ∈ ts.filterMap fun t' => if t'.name.val = t.name.val then t'.entityObject? else none :=
    List.mem_filterMap.2 ⟨t, ht, by simp [hT]⟩
  have hlen := length_filterMap_named_le_one hnd t.name.val
  show List.getLast? _ = _
  generalize
    (ts.filterMap fun t' => if t'.name.val = t.name.val then t'.entityObject? else none) = L
    at hmem hlen
  match L, hmem, hlen with
  | [_], .head _, _ => rfl

/-- and every object it reads is one of them. -/
theorem NameCaches.mem_of_ofTypes_objects {ts : List TypeDefinition} {M : String} {o : ObjectType}
    (h : (NameCaches.ofTypes ts).objects M = some o) :
    ∃ t ∈ ts, t.name.val = M ∧ t.entityObject? = some o := by
  obtain ⟨t, ht, he⟩ := List.mem_filterMap.1 (List.mem_of_getLast?_eq_some h)
  split_ifs at he with hn
  exact ⟨t, ht, hn, he⟩

/-- **The field maps the type definitions `ts` determine.**  At the name of
each definition of `ts` the maps hold what its step registers, the members of
a union being the entity objects of `ts` of their names; every union member is
one of them; and no other key holds anything. -/
structure FieldMapsSpec (ts : List TypeDefinition) (s : Indices) : Prop where
  at_type : ∀ t ∈ ts, FieldsAt (NameCaches.ofTypes ts).objects t s
  members : ∀ t ∈ ts, ∀ M ∈ t.memberNames, ((NameCaches.ofTypes ts).objects M).isSome
  fieldMaps_key : ∀ k, (∀ t ∈ ts, ∀ n, k ≠ fieldId t.name.val n) →
    s.fieldDefs k = none ∧ s.fieldTypeMappings k = none ∧ s.fieldTypeOptionality k = none
  objectFieldMappings_key : ∀ K ∉ ts.map fun t => t.name.val, s.objectFieldMappings K = none
  objectOrderedFields_key : ∀ K ∉ ts.map fun t => t.name.val, s.objectOrderedFields K = none

/-- The field maps as the rest of the indexer reads them: the three maps keyed
by field id, `object_field_mappings` through its lookups `[K][n]`, as
`field_type` reads it, and `object_ordered_fields` with an empty default. -/
@[ext] structure FieldMaps where
  fieldDefs : String → Option (FieldDefinition × String)
  fieldTypeMappings : String → Option String
  fieldTypeOptionality : String → Option Bool
  objectFieldTypes : String → String → Option String
  objectOrderedFields : String → List OrderedField

/-- The field maps of a state of the pass. -/
def Indices.fieldMaps (s : Indices) : FieldMaps :=
  ⟨s.fieldDefs, s.fieldTypeMappings, s.fieldTypeOptionality,
    fun K n => (s.objectFieldMappings K).bind fun mp => mp n,
    fun K => (s.objectOrderedFields K).getD []⟩

namespace FieldMapsSpec

variable {ts ts' : List TypeDefinition} {a b s : Indices}

/-- **The description determines the field maps.** -/
theorem fieldMaps_eq (ha : FieldMapsSpec ts a) (hb : FieldMapsSpec ts b) :
    a.fieldMaps = b.fieldMaps := by
  have hk k : a.fieldDefs k = b.fieldDefs k ∧ a.fieldTypeMappings k = b.fieldTypeMappings k ∧
      a.fieldTypeOptionality k = b.fieldTypeOptionality k := by
    by_cases hk : ∃ t ∈ ts, ∃ n, k = fieldId t.name.val n
    · obtain ⟨t, ht, n, rfl⟩ := hk
      have ea := ha.at_type t ht
      have eb := hb.at_type t ht
      exact ⟨(ea.fieldDefs n).trans (eb.fieldDefs n).symm,
        (ea.fieldTypeMappings n).trans (eb.fieldTypeMappings n).symm,
        (ea.fieldTypeOptionality n).trans (eb.fieldTypeOptionality n).symm⟩
    · push_neg at hk
      obtain ⟨a₁, a₂, a₃⟩ := ha.fieldMaps_key k hk
      obtain ⟨b₁, b₂, b₃⟩ := hb.fieldMaps_key k hk
      exact ⟨a₁.trans b₁.symm, a₂.trans b₂.symm, a₃.trans b₃.symm⟩
  have hK K : (∀ n, ((a.objectFieldMappings K).bind fun mp => mp n) =
      (b.objectFieldMappings K).bind fun mp => mp n) ∧
      (a.objectOrderedFields K).getD [] = (b.objectOrderedFields K).getD [] := by
    by_cases hK : K ∈ ts.map fun t => t.name.val
    · obtain ⟨t, ht, rfl⟩ := List.mem_map.1 hK
      have ea := ha.at_type t ht
      have eb := hb.at_type t ht
      exact ⟨fun n => (ea.objectFieldMappings n).trans (eb.objectFieldMappings n).symm,
        ea.objectOrderedFields.trans eb.objectOrderedFields.symm⟩
    · simp [ha.objectFieldMappings_key K hK, hb.objectFieldMappings_key K hK,
        ha.objectOrderedFields_key K hK, hb.objectOrderedFields_key K hK]
  exact FieldMaps.ext (funext fun k => (hk k).1) (funext fun k => (hk k).2.1)
    (funext fun k => (hk k).2.2) (funext fun K => funext (hK K).1) (funext fun K => (hK K).2)

/-- The description does not depend on the order of the definitions, when
their names are distinct. -/
theorem perm (h : FieldMapsSpec ts s) (hp : ts.Perm ts')
    (hnd : (ts.map fun t => t.name.val).Nodup) : FieldMapsSpec ts' s := by
  have ho := congrArg NameCaches.objects (NameCaches.ofTypes_perm hp hnd)
  have hm {K : String} := (hp.map fun t => t.name.val).mem_iff (a := K)
  refine ⟨fun t ht => ?_, fun t ht => ?_, fun k hk => h.fieldMaps_key k fun t ht => ?_,
    fun K hK => h.objectFieldMappings_key K (hK ∘ hm.1),
    fun K hK => h.objectOrderedFields_key K (hK ∘ hm.1)⟩
  · rw [← ho]; exact h.at_type t (hp.mem_iff.2 ht)
  · rw [← ho]; exact h.members t (hp.mem_iff.2 ht)
  · exact hk t (hp.mem_iff.1 ht)

end FieldMapsSpec

/-- With distinct names, at most one type definition of a name passes a test
that reads the name. -/
theorem length_filter_named_le_one {ts : List TypeDefinition}
    (hnd : (ts.map fun t => t.name.val).Nodup) {p : TypeDefinition → Bool} {k : String}
    (hp : ∀ t, p t = true → t.name.val = k) : (ts.filter p).length ≤ 1 := by
  have hsub : ((ts.filter p).map fun t => t.name.val).Subperm [k] :=
    (hnd.sublist ((List.filter_sublist ts).map _)).subperm fun x hx => by
      obtain ⟨t, ht, rfl⟩ := List.mem_map.1 hx
      exact List.mem_singleton.2 (hp t (List.mem_filter.1 ht).2)
  simpa using hsub.length_le

/-- The description of the list caches does not depend on the order of the
definitions, when their names are distinct. -/
theorem ListCaches.ofTypes_perm {ts ts' : List TypeDefinition} (hp : ts.Perm ts')
    (hnd : (ts.map fun t => t.name.val).Nodup) : ListCaches.ofTypes ts = ListCaches.ofTypes ts' :=
  ListCaches.ext (List.toFinset_eq_of_perm _ _ (hp.flatMap_right _))
    (funext fun k => congrArg List.getLast? (eq_of_perm_of_length_le_one (hp.filter _)
      (length_filter_named_le_one hnd fun t ht => by simpa using (Bool.and_eq_true_iff.1 ht).1)))

/-! ## The refinement -/

/-- What a run over the definitions `ds` keeps away from the names they
declare: the three field maps at every key that is no field id of one of
those names, and `object_field_mappings` and `object_ordered_fields` under
every other name. -/
structure FieldFrame (ds : List TypeSystemDefinition) (a b : Indices) : Prop where
  fieldMaps : ∀ k, (∀ t ∈ declaredTypes ds, ∀ n, k ≠ fieldId t.name.val n) →
    b.fieldDefs k = a.fieldDefs k ∧ b.fieldTypeMappings k = a.fieldTypeMappings k ∧
      b.fieldTypeOptionality k = a.fieldTypeOptionality k
  byName : ∀ K ∉ declaredNames ds, b.objectFieldMappings K = a.objectFieldMappings K ∧
    b.objectOrderedFields K = a.objectOrderedFields K

namespace FieldFrame

variable {ds : List TypeSystemDefinition} {a b c : Indices}

theorem refl (s : Indices) : FieldFrame ds s s :=
  ⟨fun _ _ => ⟨rfl, rfl, rfl⟩, fun _ _ => ⟨rfl, rfl⟩⟩

theorem trans (h₁ : FieldFrame ds a b) (h₂ : FieldFrame ds b c) : FieldFrame ds a c where
  fieldMaps k hk := by
    obtain ⟨e₁, e₂, e₃⟩ := h₁.fieldMaps k hk
    obtain ⟨f₁, f₂, f₃⟩ := h₂.fieldMaps k hk
    exact ⟨f₁.trans e₁, f₂.trans e₂, f₃.trans e₃⟩
  byName K hK := ⟨(h₂.byName K hK).1.trans (h₁.byName K hK).1,
    (h₂.byName K hK).2.trans (h₁.byName K hK).2⟩

/-- The step of a definition of `ds` keeps the frame. -/
theorem of_stepFrame {t : TypeDefinition} (ht : t ∈ declaredTypes ds) (hf : StepFrame t a b) :
    FieldFrame ds a b where
  fieldMaps k hk := hf.fieldMaps k (hk t ht)
  byName K hK := by
    have hne : K ≠ t.name.val := fun he => hK (he ▸ List.mem_map_of_mem _ ht)
    exact ⟨hf.objectFieldMappings K hne, hf.objectOrderedFields K hne⟩

end FieldFrame

section Run

variable (scalarNames : Finset String)

theorem definitions_fieldFrame {ds pre : List TypeSystemDefinition} {s s' : Indices}
    (h : definitions scalarNames ds s = .ok s') (hR : Reach pre s)
    (hnd : (declaredNames (pre ++ ds)).Nodup) : FieldFrame ds s s' :=
  definitions_preserves scalarNames FieldFrame.refl FieldFrame.trans
    (fun _ ht _ _ hf => FieldFrame.of_stepFrame ht hf) h hR hnd

/-- **A run meets the description of its type definitions**, from empty
caches and with distinct type names. -/
theorem definitions_fieldMapsSpec {ds : List TypeSystemDefinition} {s' : Indices}
    (h : definitions scalarNames ds Indices.empty = .ok s') (hnd : (declaredNames ds).Nodup) :
    FieldMapsSpec (declaredTypes ds) s' := by
  have hobjs {pre post t s₁ s₂} (hr : RunAt scalarNames pre post t s₁ s₂ s')
      (hsplit : ds = pre ++ .type t :: post) (M : String) (o : ObjectType)
      (hM : s₁.objects M = some o) :
      (NameCaches.ofTypes (declaredTypes ds)).objects M = some o := by
    obtain ⟨t', ht', rfl, hT⟩ := hr.reach_before.objects M o hM
    exact NameCaches.ofTypes_objects_of_mem hnd (by simp [hsplit, ht']) hT
  have hfr := definitions_fieldFrame scalarNames h Reach.empty (by simpa using hnd)
  refine ⟨fun t ht => ?_, fun t ht M hM => ?_, fun k hk => hfr.fieldMaps k hk,
    fun K hK => (hfr.byName K hK).1, fun K hK => (hfr.byName K hK).2⟩
  all_goals
    obtain ⟨pre, post, hsplit⟩ := List.append_of_mem (mem_declaredTypes.1 ht)
    obtain ⟨s₁, s₂, hr⟩ := definitions_at scalarNames h hnd hsplit
  · exact (definitionStep_fieldsAt scalarNames hr.step (hr.keyFrame_before hr.fresh)
      (hobjs hr hsplit)).of_keyFrame (hr.keyFrame_after hr.last)
  · obtain ⟨o, ho⟩ := Option.isSome_iff_exists.1 (hr.frame.members M hM)
    simp [hobjs hr hsplit M o ho]

end Run

/-- **The field maps of `new` meet the description of the document's type
definitions**, when their names are distinct: at the name of each definition
they hold the last field of each name that its step registers (an entity
object's own fields, a union's member fields in member order, with the
declaring object as owner) or an enum's values, every union member is an
entity object of the document, and no other key holds anything. -/
theorem new_fieldMapsSpec {scalarNames : Finset String} {doc : ServiceDocument}
    {m : ParsedGraphQLSchema} (h : ParsedGraphQLSchema.new scalarNames (some doc) = .ok m)
    (hnd : (declaredNames doc.definitions).Nodup) :
    FieldMapsSpec doc.typeDefinitions m.toIndices :=
  definitions_fieldMapsSpec scalarNames (ParsedGraphQLSchema.new_eq_ok h).1 hnd

/-- `new` accepts the union `U = A | B` of two members that both declare `x`. -/
theorem sharedFieldSchema_accepted :
    ∃ m, ParsedGraphQLSchema.new ParserTest.scalarNames (some sharedFieldSchema) = .ok m :=
  ⟨_, rfl⟩

/-- The union `U = A | B` and its members meet the description. -/
theorem sharedFieldSchema_fieldMapsSpec :
    ∃ m, ParsedGraphQLSchema.new ParserTest.scalarNames (some sharedFieldSchema) = .ok m ∧
      FieldMapsSpec sharedFieldSchema.typeDefinitions m.toIndices := by
  obtain ⟨m, hm⟩ := sharedFieldSchema_accepted
  exact ⟨m, hm, new_fieldMapsSpec hm (by decide)⟩

/-! ## Declaration order -/

/-- **Reordering the declarations of a document leaves the field maps and the
list caches of `new` as they are**, when its type names are distinct and both
orders are accepted. -/
theorem new_fieldMaps_perm {scalarNames : Finset String} {doc doc' : ServiceDocument}
    {m m' : ParsedGraphQLSchema} (h : ParsedGraphQLSchema.new scalarNames (some doc) = .ok m)
    (h' : ParsedGraphQLSchema.new scalarNames (some doc') = .ok m')
    (hp : doc.definitions.Perm doc'.definitions) (hnd : (declaredNames doc.definitions).Nodup) :
    m.toIndices.fieldMaps = m'.toIndices.fieldMaps ∧
      m.toIndices.listCaches = m'.toIndices.listCaches := by
  have hts : (declaredTypes doc.definitions).Perm (declaredTypes doc'.definitions) :=
    hp.filterMap _
  have hnd' : (declaredNames doc'.definitions).Nodup := ((hts.map _).nodup_iff).1 hnd
  have e := (ParsedGraphQLSchema.new_eq_ok h).1
  have e' := (ParsedGraphQLSchema.new_eq_ok h').1
  refine ⟨((definitions_fieldMapsSpec scalarNames e hnd).perm hts hnd).fieldMaps_eq
    (definitions_fieldMapsSpec scalarNames e' hnd'), ?_⟩
  rw [definitions_listCaches scalarNames e hnd, definitions_listCaches scalarNames e' hnd']
  exact ListCaches.ofTypes_perm hts hnd

/-- The two orders of `Wallet` and `Account`: the same field maps and list
caches. -/
theorem walletAccount_fieldMaps_perm :
    ∃ m m', ParsedGraphQLSchema.new ParserTest.scalarNames (some walletFirstSchema) = .ok m ∧
      ParsedGraphQLSchema.new ParserTest.scalarNames (some accountFirstSchema) = .ok m' ∧
      m.toIndices.fieldMaps = m'.toIndices.fieldMaps ∧
      m.toIndices.listCaches = m'.toIndices.listCaches := by
  obtain ⟨m, hm⟩ : ∃ m, ParsedGraphQLSchema.new ParserTest.scalarNames
      (some walletFirstSchema) = .ok m := ⟨_, rfl⟩
  obtain ⟨m', hm'⟩ : ∃ m', ParsedGraphQLSchema.new ParserTest.scalarNames
      (some accountFirstSchema) = .ok m' := ⟨_, rfl⟩
  exact ⟨m, m', hm, hm', new_fieldMaps_perm hm hm' (List.Perm.swap _ _ []) (by decide)⟩

/-! ## A union and its members -/

theorem TypeDefinition.fieldPairs_of_entityObject (objs : String → Option ObjectType)
    {t : TypeDefinition} {o : ObjectType} (hT : t.entityObject? = some o) :
    t.kind.isEnum = false ∧ t.fieldPairs objs = o.fields.map fun f => (t.name.val, f) := by
  unfold TypeDefinition.entityObject? at hT
  split at hT
  · rename_i hk
    split at hT
    · cases hT
      simp [TypeDefinition.fieldPairs, TypeKind.isEnum, hk, *]
    · cases hT
  · cases hT

theorem getLast?_filterMap_map {α β γ : Type} (f : α → Option β) (g : β → γ) (l : List α) :
    (l.filterMap f).getLast?.map g = (l.filterMap fun a => (f a).map g).getLast? := by
  rw [← List.getLast?_map, List.map_filterMap]

/-- On maps that meet the description, a union's entry for a field name is
that of its last member with one. -/
theorem FieldMapsSpec.union_merge {ts : List TypeDefinition} {s : Indices}
    (S : FieldMapsSpec ts s) {t : TypeDefinition} {u : UnionType} (ht : t ∈ ts)
    (hk : t.kind = .union u) (n : String) :
    s.fieldDefs (fieldId t.name.val n) =
        (u.members.filterMap fun M => s.fieldDefs (fieldId M.val n)).getLast? ∧
      s.fieldTypeMappings (fieldId t.name.val n) =
        (u.members.filterMap fun M => s.fieldTypeMappings (fieldId M.val n)).getLast? ∧
      s.fieldTypeOptionality (fieldId t.name.val n) =
        (u.members.filterMap fun M => s.fieldTypeOptionality (fieldId M.val n)).getLast? ∧
      ((s.objectFieldMappings t.name.val).bind fun mp => mp n) =
        (u.members.filterMap fun M =>
          (s.objectFieldMappings M.val).bind fun mp => mp n).getLast? := by
  have hat := S.at_type
  have hmembers := S.members t ht
  have hsrc (M : String) (o : ObjectType) (h : (NameCaches.ofTypes ts).objects M = some o) :=
    NameCaches.mem_of_ofTypes_objects h
  generalize (NameCaches.ofTypes ts).objects = objs at hat hmembers hsrc
  have hmem (M : Name) (hM : M ∈ u.members) :
      let L := lastFieldNamed (memberFields objs M) n
      s.fieldDefs (fieldId M.val n) = L.map (fun p => (p.2, p.1)) ∧
        s.fieldTypeMappings (fieldId M.val n) = L.map (fun p => fieldTypeName p.2) ∧
        s.fieldTypeOptionality (fieldId M.val n) = L.map (fun p => p.2.ty.nullable) ∧
        ((s.objectFieldMappings M.val).bind fun mp => mp n) =
          L.map (fun p => fieldTypeName p.2) := by
    obtain ⟨o, ho⟩ := Option.isSome_iff_exists.1
      (hmembers M.val (by simp [TypeDefinition.memberNames, hk, List.mem_map_of_mem _ hM]))
    obtain ⟨tM, htM, hname, hT⟩ := hsrc _ _ ho
    obtain ⟨hEM, hp⟩ := TypeDefinition.fieldPairs_of_entityObject objs hT
    have hg : tM.fieldPairs objs = memberFields objs M := by
      rw [hp, memberFields_of_eq_some ho, hname]
    have A := hat tM htM
    rw [← hname, A.fieldDefs, A.fieldTypeMappings, A.fieldTypeOptionality, A.objectFieldMappings,
      TypeDefinition.fieldTypeAt_of_not_enum hEM, hg]
    exact ⟨rfl, rfl, rfl, rfl⟩
  have hL : lastFieldNamed (t.fieldPairs objs) n =
      (u.members.filterMap fun M => lastFieldNamed (memberFields objs M) n).getLast? := by
    rw [← lastFieldNamed_flatMap]
    simp [TypeDefinition.fieldPairs, hk]
  have hE : t.kind.isEnum = false := by simp [hk, TypeKind.isEnum]
  have A := hat t ht
  rw [A.fieldDefs, A.fieldTypeMappings, A.fieldTypeOptionality, A.objectFieldMappings,
    TypeDefinition.fieldTypeAt_of_not_enum hE, hL]
  simp only [getLast?_filterMap_map]
  exact ⟨congrArg _ (List.filterMap_congr fun M hM => (hmem M hM).1.symm),
    congrArg _ (List.filterMap_congr fun M hM => (hmem M hM).2.1.symm),
    congrArg _ (List.filterMap_congr fun M hM => (hmem M hM).2.2.1.symm),
    congrArg _ (List.filterMap_congr fun M hM => (hmem M hM).2.2.2.symm)⟩

/-- **A union's field maps merge its members'.**  On the maps `new` returns for
a document with distinct type names, the entry of each of the four maps for a
union `t` and a field name `n` is the entry for `n` of the last member of `t`
that has one: the same field with the same owner, the member that declares it. -/
theorem unionField_merge {scalarNames : Finset String} {doc : ServiceDocument}
    {m : ParsedGraphQLSchema} (h : ParsedGraphQLSchema.new scalarNames (some doc) = .ok m)
    (hnd : (declaredNames doc.definitions).Nodup) {t : TypeDefinition} {u : UnionType}
    (ht : t ∈ doc.typeDefinitions) (hk : t.kind = .union u) (n : String) :
    m.fieldDefs (fieldId t.name.val n) =
        (u.members.filterMap fun M => m.fieldDefs (fieldId M.val n)).getLast? ∧
      m.fieldTypeMappings (fieldId t.name.val n) =
        (u.members.filterMap fun M => m.fieldTypeMappings (fieldId M.val n)).getLast? ∧
      m.fieldTypeOptionality (fieldId t.name.val n) =
        (u.members.filterMap fun M => m.fieldTypeOptionality (fieldId M.val n)).getLast? ∧
      ((m.objectFieldMappings t.name.val).bind fun mp => mp n) =
        (u.members.filterMap fun M => (m.objectFieldMappings M.val).bind fun mp => mp n).getLast? :=
  (definitions_fieldMapsSpec scalarNames (ParsedGraphQLSchema.new_eq_ok h).1 hnd).union_merge
    ht hk n

/-- On the union `U = A | B` whose members both declare `x`, each of `U.x`'s
entries is the last member's. -/
theorem sharedFieldSchema_unionMerge :
    ∃ m, ParsedGraphQLSchema.new ParserTest.scalarNames (some sharedFieldSchema) = .ok m ∧
      m.fieldTypeMappings "U.x" = ([Name.ofLit "A", Name.ofLit "B"].filterMap fun M =>
        m.fieldTypeMappings (fieldId M.val "x")).getLast? := by
  obtain ⟨m, hm⟩ := sharedFieldSchema_accepted
  exact ⟨m, hm, (unionField_merge hm (by decide)
    (t := ParserTest.union "U" [.ofLit "A", .ofLit "B"]) (by decide) rfl "x").2.1⟩

/-! ## A redeclared entity object -/

/-- **A redeclared entity object is accepted, and leaves its first fields
behind.**  Take a document with distinct type names and a second entity object
`t'` of the name of one of its entity objects `t`, appended after it, as
`inject_native_entities_into_schema` does to a schema that declares its own
`IndexMetadataEntity`.  When `new` accepts the document and `t'` has no `@join`
field, `new` accepts it with `t'`: nothing checks the name again.  And on what
`new` returns with `t'`, at each field name `n` the field maps hold the last
field of `t'` named `n`, or else that of `t`, while `object_field_mappings`
holds only the fields of `t'`: a field that only `t` has stays in `field_defs`
and `field_type_mappings` with no entry in `object_field_mappings`. -/
theorem redeclaredObject_staleFields {scalarNames : Finset String}
    {ds : List TypeSystemDefinition} {t t' : TypeDefinition} {o o' : ObjectType}
    (hnd : (declaredNames ds).Nodup) (ht : t ∈ declaredTypes ds) (hT : t.entityObject? = some o)
    (hT' : t'.entityObject? = some o') (hname : t'.name = t.name) :
    (∀ m₀, ParsedGraphQLSchema.new scalarNames (some ⟨ds⟩) = .ok m₀ →
      (∀ f ∈ o'.fields, joinDirective f = none) →
      ∃ m, ParsedGraphQLSchema.new scalarNames (some ⟨ds ++ [.type t']⟩) = .ok m) ∧
    ∀ m, ParsedGraphQLSchema.new scalarNames (some ⟨ds ++ [.type t']⟩) = .ok m → ∀ n,
      let L := (o.fields.filter fun g => g.name.val = n).getLast?
      let L' := (o'.fields.filter fun g => g.name.val = n).getLast?
      m.fieldDefs (fieldId t.name.val n) = (L'.or L).map (fun g => (g, t.name.val)) ∧
        m.fieldTypeMappings (fieldId t.name.val n) = (L'.or L).map fieldTypeName ∧
        ((m.objectFieldMappings t.name.val).bind fun mp => mp n) = L'.map fieldTypeName := by
  refine ⟨fun _ h₀ hj => new_append_entityObject h₀ hT' hj, fun m h n => ?_⟩
  obtain ⟨s₁, h₁, h₂⟩ :=
    (Indices.definitions_append_eq_ok scalarNames).1 (ParsedGraphQLSchema.new_eq_ok h).1
  obtain ⟨s₂, hs, hs₂⟩ := Except.bind_eq_ok.1 h₂
  cases Except.pure_eq_ok.1 hs₂
  rw [definitionStep_of_entityObject scalarNames hT'] at hs
  obtain ⟨r, hr, he⟩ := objectArm_eq_ok scalarNames hs
  obtain ⟨e₁, e₂, -, e₄⟩ := objectFields_at scalarNames n hr
  have A := (definitions_fieldMapsSpec scalarNames h₁ hnd).at_type t ht
  have hp := (TypeDefinition.fieldPairs_of_entityObject
    (NameCaches.ofTypes (declaredTypes ds)).objects hT).2
  have d₁ := A.fieldDefs n
  have d₂ := A.fieldTypeMappings n
  rw [TypeDefinition.fieldTypeAt_of_not_enum
    (TypeDefinition.fieldPairs_of_entityObject (fun _ => none) hT).1] at d₂
  rw [hp, lastFieldNamed_map_pair] at d₁ d₂
  rw [hname, lastFieldNamed_map_pair] at e₁ e₂ e₄
  have hd : m.fieldDefs = r.1.fieldDefs := by rw [he]
  have hm : m.fieldTypeMappings = r.1.fieldTypeMappings := by rw [he]
  have ho : m.objectFieldMappings =
      Function.update r.1.objectFieldMappings t'.name.val (some r.2) := by rw [he]
  have hreg : (registerObject t' o' s₁).fieldDefs = s₁.fieldDefs ∧
      (registerObject t' o' s₁).fieldTypeMappings = s₁.fieldTypeMappings := ⟨rfl, rfl⟩
  refine ⟨?_, ?_, ?_⟩
  · rw [hd, e₁, hreg.1, d₁, Option.map_or']
    simp only [Option.map_map]
    rfl
  · rw [hm, e₂, hreg.2, d₂, Option.map_or']
    simp only [Option.map_map]
    rfl
  · rw [ho, hname, Function.update_same, Option.some_bind, e₄, Option.or_none, Option.map_map]
    rfl

/-- A user schema that declares its own `IndexMetadataEntity`, with a field
`foo` the native one lacks. -/
def ownMetadataEntity : TypeDefinition :=
  ParserTest.entity "IndexMetadataEntity"
    [ParserTest.field "id" "ID", ParserTest.field "foo" "UInt8"]

/-- `new` accepts the schema of `ownMetadataEntity` alone, and so, the native
entity having no `@join` field, accepts it once the native entity is injected
after it; `foo` then stays in `field_defs` but is no field of
`object_field_mappings[IndexMetadataEntity]`. -/
theorem ownMetadata_staleFields :
    ∃ m, ParsedGraphQLSchema.new ParserTest.scalarNames
        (some (injectNativeEntitiesIntoSchema ⟨[.type ownMetadataEntity]⟩)) = .ok m ∧
      m.fieldDefs "IndexMetadataEntity.foo" =
        some (ParserTest.field "foo" "UInt8", "IndexMetadataEntity") ∧
      ((m.objectFieldMappings "IndexMetadataEntity").bind fun mp => mp "foo") = none := by
  obtain ⟨m₀, hm₀⟩ : ∃ m₀, ParsedGraphQLSchema.new ParserTest.scalarNames
      (some ⟨[.type ownMetadataEntity]⟩) = .ok m₀ := ⟨_, rfl⟩
  have hstale := @redeclaredObject_staleFields ParserTest.scalarNames [.type ownMetadataEntity]
    ownMetadataEntity indexMetadataEntity _ _ (by decide) (by decide) rfl rfl rfl
  obtain ⟨m, hm⟩ := hstale.1 m₀ hm₀ (by decide)
  obtain ⟨h₁, -, h₃⟩ := hstale.2 m hm "foo"
  exact ⟨m, hm, h₁.trans (by decide), h₃.trans (by decide)⟩

/-! ## Field lookups under a wrapped parent -/

section Lookup

variable (scalarNames : Finset String)

/-- Every step writes `object_field_mappings` under its own name only, from
any caches. -/
theorem definitionStep_objectFieldMappings_of_ne {a b : Indices} {d : TypeSystemDefinition}
    (h : definitionStep scalarNames a d = .ok b) {K : String}
    (hK : ∀ t, d.typeDefinition? = some t → K ≠ t.name.val) :
    b.objectFieldMappings K = a.objectFieldMappings K := by
  cases d with
  | type t =>
    have hK := hK t rfl
    rw [definitionStep] at h
    split at h
    · split at h
      · obtain ⟨r, hr, rfl⟩ := objectArm_eq_ok scalarNames h
        simp only [Function.update_noteq hK]
        rw [objectFields_eq scalarNames hr]
        rfl
      · cases h; rfl
    · cases h; exact enumValues_objectFieldMappings_of_ne hK _ _
    · obtain ⟨c, os, hc, -, rfl⟩ := unionArm_eq_copyFields scalarNames h
      rw [copyFields_objectFieldMappings_of_ne _ hK, hc]
      rfl
    · cases h
  | schema | directive => cases h; rfl

/-- Every key of `object_field_mappings` is a name, after any returning run
from empty caches. -/
theorem definitions_objectFieldMappings_isName {ds : List TypeSystemDefinition} {s' : Indices}
    (h : definitions scalarNames ds Indices.empty = .ok s') (K : String)
    (hK : (s'.objectFieldMappings K).isSome) : isName K = true := by
  refine definitions_invariant scalarNames
    (I := fun s => ∀ K, (s.objectFieldMappings K).isSome → isName K = true)
    (fun d hd hI K hK => ?_) h (fun _ h => by cases h) K hK
  by_cases hn : ∃ t, d.typeDefinition? = some t ∧ K = t.name.val
  · obtain ⟨t, -, rfl⟩ := hn
    exact t.name.isName_val
  · push_neg at hn
    exact hI K (definitionStep_objectFieldMappings_of_ne scalarNames hd hn ▸ hK)

end Lookup

theorem stripChars_name (N : Name) : stripChars ['[', ']', '!'] N.val = N.val := by
  have h := stripChars_toString (.named N true)
  simp only [Ty.toString, Ty.bang, if_true, String.append_empty, Ty.baseName] at h
  exact String.ext h

/-- **A field lookup ignores the list and non-null wrappers of its parent.**
On every model `new` returns, `graphql_type` with a parent written as any
GraphQL type gives what it gives with the parent's base name: a wrapped name is
no key of `object_field_mappings`, so `field_type` falls back to the name with
`[`, `]` and `!` removed. -/
theorem graphqlType_wrappedParent {scalarNames : Finset String} {doc : ServiceDocument}
    {m : ParsedGraphQLSchema} (h : ParsedGraphQLSchema.new scalarNames (some doc) = .ok m)
    (ty : Ty) (n : String) :
    m.graphqlType (some ty.toString) n = m.graphqlType (some ty.baseName.val) n := by
  have hstrip : stripChars ['[', ']', '!'] ty.toString = ty.baseName.val :=
    String.ext (stripChars_toString ty)
  by_cases heq : ty.toString = ty.baseName.val
  · rw [heq]
  have hc : m.objectFieldMappings ty.toString = none := by
    rw [← Option.not_isSome_iff_eq_none]
    intro hs
    have hN := definitions_objectFieldMappings_isName scalarNames
      (ParsedGraphQLSchema.new_eq_ok h).1 _ hs
    exact heq (hstrip ▸ (stripChars_name ⟨_, hN⟩).symm)
  simp only [ParsedGraphQLSchema.graphqlType, ParsedGraphQLSchema.fieldType, hc, hstrip]
  cases hb : m.objectFieldMappings ty.baseName.val <;> simp [hb, stripChars_name]

/-- In the parser test's model, `Wallet`'s field `id` is found under the
parent `[Wallet!]!` too. -/
theorem walletList_graphqlType :
    ∃ m, ParsedGraphQLSchema.new ParserTest.scalarNames (some ParserTest.schema) = .ok m ∧
      m.graphqlType (some "[Wallet!]!") "id" = m.graphqlType (some "Wallet") "id" := by
  obtain ⟨m, hm, -⟩ := ParserTest.new_schema
  exact ⟨m, hm, graphqlType_wrappedParent hm (.list (.named (.ofLit "Wallet") false) false) "id"⟩

end GraphQL
end FuelIndexer
