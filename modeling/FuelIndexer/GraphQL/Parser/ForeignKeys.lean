import FuelIndexer.GraphQL.Parser.JoinTables

/-!
# Foreign keys

`scalar_type_for` gives a field a foreign-key column when
`is_possible_foreign_key` holds of its base type on the returned model.  The
pass records the same relation earlier, in `foreign_key_mappings`, with the
test written out by hand on the caches as they stand when the field is
reached.  The two agree only when the test's inputs are complete by then.

* `parsed_typedef_names` fills as the loop goes, so a base type declared after
  the object that refers to it is not there yet: the field gets no key, though
  the final predicate holds (`forwardReference_not_foreignKey`).  For a base
  type that is the object itself or declared before it, key and predicate
  agree (`foreignKey_iff_of_declared_before`).
* `parsed_typedef_names` also receives every field name, so a name that is
  only a field name passes the final predicate, and `is_virtual_typedef` marks
  an object with any argument named `virtual`, whatever its value
  (`relationshipClassification`).
* Whatever the order, every entry of `foreign_key_mappings` is a field of an
  entity object, and records the field's base type and join column
  (`foreignKey_entry_source`).
-/

namespace FuelIndexer
namespace GraphQL

open Indices

variable {scalarNames : Finset String} {doc : ServiceDocument} {m : ParsedGraphQLSchema}

namespace Indices

variable (scalarNames) in
/-- What a step can add to `foreign_key_mappings`: under the lowercased name of
an entity object and the name of one of its fields, that field's referenced
table and column. -/
theorem definitionStep_foreignKey {t : TypeDefinition} {a b : Indices} {k n : String}
    {v : String × String} (h : definitionStep scalarNames a (.type t) = .ok b)
    (hU : a.objects t.name.val = none)
    (hv : ((b.foreignKeyMappings k).bind fun mp => mp n) = some v) :
    ((a.foreignKeyMappings k).bind fun mp => mp n) = some v ∨
      ∃ o, t.entityObject? = some o ∧ toLowercase t.name.val = k ∧
        ∃ f ∈ o.fields, f.name.val = n ∧ v = (toLowercase (fieldTypeName f), joinColumn f) := by
  by_cases hk : k = toLowercase t.name.val
  swap
  · exact .inl (by rwa [(definitionStep_frame scalarNames h hU).foreignKeyMappings k hk] at hv)
  subst hk
  rw [definitionStep] at h
  split at h
  · rename_i o hk
    split at h
    · obtain ⟨r, hr, rfl⟩ := objectArm_eq_ok scalarNames h
      refine (objectFields_foreignKey_value scalarNames hr hv).imp id fun hf => ?_
      exact ⟨o, by simp [TypeDefinition.entityObject?, hk, *], rfl, hf⟩
    · cases h
      exact .inl hv
  · cases h
    rw [enumArm_eq] at hv
    exact .inl hv
  · obtain ⟨os, -, rfl⟩ := unionArm_eq_ok scalarNames hU h
    rw [copyFields_eq] at hv
    exact .inl hv
  · cases h

variable (scalarNames) in
/-- **Every foreign-key entry of a run is a field of an entity object** of the
run, with the field's referenced table and column, from empty caches and with
distinct type names. -/
theorem definitions_foreignKey {ds : List TypeSystemDefinition} {s' : Indices}
    (h : definitions scalarNames ds Indices.empty = .ok s') (hnd : (declaredNames ds).Nodup)
    {k n : String} {v : String × String}
    (hv : ((s'.foreignKeyMappings k).bind fun mp => mp n) = some v) :
    ∃ t ∈ declaredTypes ds, ∃ o, t.entityObject? = some o ∧ toLowercase t.name.val = k ∧
      ∃ f ∈ o.fields, f.name.val = n ∧ v = (toLowercase (fieldTypeName f), joinColumn f) := by
  have := definitions_induction scalarNames
    (I := fun p a => ∀ k n v, ((a.foreignKeyMappings k).bind fun mp => mp n) = some v →
      ∃ t ∈ declaredTypes p, ∃ o, t.entityObject? = some o ∧ toLowercase t.name.val = k ∧
        ∃ f ∈ o.fields, f.name.val = n ∧ v = (toLowercase (fieldTypeName f), joinColumn f))
    (fun p a d hd hI => by beta_reduce; rwa [declaredTypes_append_of_none hd])
    (fun t _ p a b hR hT hs _ hI k n v hv => by
      rcases definitionStep_foreignKey scalarNames hs (hR.objects_eq_none hT) hv with hv | hf
      · obtain ⟨t', ht', rest⟩ := hI k n v hv
        exact ⟨t', by simp [ht'], rest⟩
      · exact ⟨t, by simp, hf⟩)
    h Reach.empty (by simpa using hnd) (fun k n v hv => by simp [Indices.empty] at hv)
  simpa using this.1 k n v hv

end Indices

/-- **Every entry of `foreign_key_mappings` is a field of an entity object.**
For a document with distinct type names, an entry `(table, column)` under the
keys `k` and `n` belongs to an entity object of the document whose lowercased
name is `k` and to a field of it named `n`: `table` is the field's base type,
lowercased, and `column` the value of the last argument of its `@join`, `id` without
one. -/
theorem foreignKey_entry_source (h : ParsedGraphQLSchema.new scalarNames (some doc) = .ok m)
    (hnd : (declaredNames doc.definitions).Nodup) {k n : String} {v : String × String}
    (hv : ((m.foreignKeyMappings k).bind fun mp => mp n) = some v) :
    ∃ t ∈ doc.typeDefinitions, ∃ o, t.entityObject? = some o ∧ toLowercase t.name.val = k ∧
      ∃ f ∈ o.fields, f.name.val = n ∧ v = (toLowercase (fieldTypeName f), joinColumn f) :=
  definitions_foreignKey scalarNames (ParsedGraphQLSchema.new_eq_ok h).1 hnd hv

/-- The parser test's `User.account: Account!`: its entry in
`foreign_key_mappings["user"]` names the table `account` and the column `id`. -/
theorem user_account_foreignKeyEntry :
    ∃ m, ParsedGraphQLSchema.new ParserTest.scalarNames (some ParserTest.schema) = .ok m ∧
      ((m.foreignKeyMappings "user").bind fun mp => mp "account") = some ("account", "id") := by
  obtain ⟨m, hm, hx⟩ : ∃ m, ParsedGraphQLSchema.new ParserTest.scalarNames
      (some ParserTest.schema) = .ok m ∧
      ((m.foreignKeyMappings "user").bind fun mp => mp "account").isSome = true :=
    ⟨_, rfl, by decide⟩
  obtain ⟨v, hv⟩ := Option.isSome_iff_exists.1 hx
  have hdec : ∀ t ∈ ParserTest.schema.typeDefinitions, toLowercase t.name.val = "user" →
      ∀ o ∈ t.entityObject?, ∀ f ∈ o.fields, f.name.val = "account" →
        (toLowercase (fieldTypeName f), joinColumn f) = ("account", "id") := by decide
  obtain ⟨t, ht, o, hT, hl, f, hf, hn, rfl⟩ := foreignKey_entry_source hm (by decide) hv
  exact ⟨m, hm, hv.trans (congrArg some (hdec t ht hl o hT f hf hn))⟩

/-! ## What the returned model classifies -/

/-- **How the returned model classifies names.**  An entity object is virtual
exactly when it has a field and some directive argument named `virtual`,
whatever the argument's value.  Every field name of an entity object passes
`is_possible_foreign_key` unless it is a scalar, enum or virtual name, since
the object arm adds field names to `parsed_typedef_names`. -/
theorem relationshipClassification (h : ParsedGraphQLSchema.new scalarNames (some doc) = .ok m)
    (hnd : (declaredNames doc.definitions).Nodup) {t : TypeDefinition} {o : ObjectType}
    (ht : t ∈ doc.typeDefinitions) (hT : t.entityObject? = some o) :
    (m.isVirtualTypedef t.name.val = true ↔ t.isVirtual = true ∧ o.fields ≠ []) ∧
    ∀ g ∈ o.fields, g.name.val ∉ scalarNames → g.name.val ∉ m.enumNames →
      g.name.val ∉ m.virtualTypeNames → m.isPossibleForeignKey g.name.val = true := by
  obtain ⟨hrun, hsc⟩ := ParsedGraphQLSchema.new_eq_ok h
  obtain ⟨pre, post, hsplit⟩ := List.append_of_mem (mem_declaredTypes.1 ht)
  obtain ⟨s₁, s₂, hr⟩ := definitions_at scalarNames hrun hnd hsplit
  have hstep := hr.step
  rw [definitionStep_of_entityObject scalarNames hT] at hstep
  obtain ⟨r, hloop, hs₂⟩ := objectArm_eq_ok scalarNames hstep
  have hkf₁ := hr.keyFrame_before (K := t.name) hr.fresh
  have hr₁ := objectFields_eq scalarNames hloop
  refine ⟨?_, fun g hg hs he hv => ?_⟩
  · have he₂ : t.name.val ∉ s₂.enumNames := by
      rw [hs₂, hr₁]
      exact fun he => Finset.not_mem_empty _ (hkf₁.enumNames.1 he)
    rw [ParsedGraphQLSchema.isVirtualTypedef_eq_true, hr.virtual_after (N := t.name) hr.last he₂,
      hs₂, objectFields_virtualTypeNames scalarNames hloop]
    have hv₁ : t.name.val ∉ s₁.virtualTypeNames :=
      fun hv => Finset.not_mem_empty _ (hkf₁.virtualTypeNames.1 hv)
    cases hvir : t.isVirtual <;> cases hf : o.fields <;> simp [registerObject, hv₁]
  · have hp : g.name.val ∈ m.parsedTypedefNames :=
      hr.parsed_after (by rw [hs₂]; exact objectFields_fieldNames_parsed scalarNames hloop g hg)
    simp [ParsedGraphQLSchema.isPossibleForeignKey, ParsedGraphQLSchema.isVirtualTypedef,
      ParsedGraphQLSchema.isEnumTypedef, hp, hsc, hs, he, hv]

/-- `type Account @entity(virtual: false) { id: ID! label: Charfield! }`. -/
def virtualFalseSchema : ServiceDocument := injectNativeEntitiesIntoSchema ⟨[
  .type ⟨.ofLit "Account", [⟨.ofLit "entity", [(.ofLit "virtual", "false")]⟩],
    .object ⟨[ParserTest.field "id" "ID", ParserTest.field "label" "Charfield"]⟩⟩]⟩

/-- On `virtualFalseSchema`, `Account` is virtual although its `@entity` says
`virtual: false`, and the field name `label`, which names no type, passes
`is_possible_foreign_key`. -/
theorem virtualFalseSchema_classification :
    ∃ m, ParsedGraphQLSchema.new ParserTest.scalarNames (some virtualFalseSchema) = .ok m ∧
      m.isVirtualTypedef "Account" = true ∧ m.isPossibleForeignKey "label" = true := by
  obtain ⟨m, hm⟩ : ∃ m, ParsedGraphQLSchema.new ParserTest.scalarNames
    (some virtualFalseSchema) = .ok m := ⟨_, rfl⟩
  have hl : "label" ∉ m.enumNames ∧ "label" ∉ m.virtualTypeNames := by
    have h : (fun m => decide ("label" ∉ m.enumNames ∧ "label" ∉ m.virtualTypeNames)) <$>
        ParsedGraphQLSchema.new ParserTest.scalarNames (some virtualFalseSchema) = .ok true := rfl
    rw [hm] at h
    simpa using Except.ok.inj h
  have hc := relationshipClassification hm (by decide) (t := ⟨.ofLit "Account",
    [⟨.ofLit "entity", [(.ofLit "virtual", "false")]⟩],
    .object ⟨[ParserTest.field "id" "ID", ParserTest.field "label" "Charfield"]⟩⟩) (by decide) rfl
  exact ⟨m, hm, hc.1.2 ⟨rfl, by simp⟩,
    hc.2 (ParserTest.field "label" "Charfield") (by decide) (by decide) hl.1 hl.2⟩

end GraphQL
end FuelIndexer
