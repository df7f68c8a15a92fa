import FuelIndexer.GraphQL.Parser.Run

/-!
# The name caches, without the loop

Five caches of the pass record names: `objects`, `enum_names`, `union_names`,
`virtual_type_names` and `parsed_typedef_names`.  The loop fills them one
definition at a time, but what each definition adds depends on that definition
alone, never on the caches the loop has built so far.  So the caches a run
ends with can be read off the document without running it.

## The description

`NameCaches.ofTypes ts` is that reading, for the type definitions `ts` in
order:

* the objects are the entity objects, the last one of a name winning, as the
  loop's `insert` does;
* the enum and union names are the names of the enums and the unions;
* the virtual names are the enums and the entity objects that have a field and
  a directive argument named `virtual` (`TypeDefinition.marksVirtual`);
* the parsed names are the names of the entity objects and unions and the
  field names of the entity objects (`TypeDefinition.parsedNames`).

## The refinement

`definitions_nameCaches`: a run from empty caches over definitions with
distinct type names ends with exactly the description of its type
definitions.  The step lemmas say what each arm adds under its own name
(`definitionStep_parsedTypedefNames`, `definitionStep_virtual_self`), and the
step frame says the rest.  `new_nameCaches` reads the result on `new`: the
name caches are a function of the set of declarations, whatever their order,
unlike the foreign-key test that reads them while they are being filled.

## The list caches

`list_field_types` and `list_type_defs` are read off the document the same
way (`ListCaches.ofTypes`, `definitions_listCaches`, `new_listCaches`).
-/

namespace FuelIndexer
namespace GraphQL

open Indices

/-! ## The description -/

/-- Whether the step of `t` puts its name in `virtual_type_names`: an enum
does, and an entity object with a field and a directive argument named
`virtual`. -/
def TypeDefinition.marksVirtual (t : TypeDefinition) : Bool :=
  t.kind.isEnum || match t.entityObject? with
    | some o => t.isVirtual && !o.fields.isEmpty
    | none => false

/-- The names the step of `t` puts in `parsed_typedef_names`: an entity
object's name and the names of its fields, a union's name. -/
def TypeDefinition.parsedNames (t : TypeDefinition) : List String :=
  match t.entityObject? with
  | some o => t.name.val :: o.fields.map fun f => f.name.val
  | none => if t.kind.isUnion then [t.name.val] else []

/-- The five name caches. -/
@[ext] structure NameCaches where
  objects : String → Option ObjectType
  enumNames : Finset String
  unionNames : Finset String
  virtualTypeNames : Finset String
  parsedTypedefNames : Finset String

/-- The name caches of a state of the pass. -/
def Indices.nameCaches (s : Indices) : NameCaches :=
  ⟨s.objects, s.enumNames, s.unionNames, s.virtualTypeNames, s.parsedTypedefNames⟩

namespace NameCaches

/-- **The name caches the type definitions `ts` determine**, read off them
without the loop. -/
def ofTypes (ts : List TypeDefinition) : NameCaches where
  objects k := (ts.filterMap fun t => if t.name.val = k then t.entityObject? else none).getLast?
  enumNames := ((ts.filter fun t => t.kind.isEnum).map fun t => t.name.val).toFinset
  unionNames := ((ts.filter fun t => t.kind.isUnion).map fun t => t.name.val).toFinset
  virtualTypeNames := ((ts.filter TypeDefinition.marksVirtual).map fun t => t.name.val).toFinset
  parsedTypedefNames := (ts.flatMap TypeDefinition.parsedNames).toFinset

variable (ts : List TypeDefinition) (t : TypeDefinition) (k : String)

@[simp] theorem ofTypes_objects_append :
    (ofTypes (ts ++ [t])).objects k =
      (if t.name.val = k then t.entityObject? else none).or ((ofTypes ts).objects k) := by
  show (List.filterMap _ (ts ++ [t])).getLast? = _
  rw [List.filterMap_append, List.getLast?_append]
  rcases hc : (if t.name.val = k then t.entityObject? else none) with _ | o <;>
    simp only [List.filterMap_cons, List.filterMap_nil, hc] <;> rfl

/-- With no entity object named `k` among the types, there is no object under `k`. -/
theorem ofTypes_objects_eq_none (h : ∀ t ∈ ts, t.name.val = k → t.entityObject? = none) :
    (ofTypes ts).objects k = none := by
  show (List.filterMap _ ts).getLast? = none
  rw [List.filterMap_eq_nil_iff.2 fun t ht => by split_ifs with hn; exacts [h t ht hn, rfl]]
  rfl

theorem mem_ofTypes_virtualTypeNames :
    k ∈ (ofTypes ts).virtualTypeNames ↔ ∃ t ∈ ts, t.marksVirtual ∧ t.name.val = k := by
  simp [ofTypes, and_assoc]

theorem mem_ofTypes_names (p : TypeDefinition → Bool) :
    k ∈ (((ts ++ [t]).filter p).map fun t => t.name.val).toFinset ↔
      k ∈ ((ts.filter p).map fun t => t.name.val).toFinset ∨ k = t.name.val ∧ p t := by
  by_cases hp : p t <;> simp [List.filter_append, hp]

@[simp] theorem ofTypes_parsedTypedefNames_append :
    (ofTypes (ts ++ [t])).parsedTypedefNames =
      (ofTypes ts).parsedTypedefNames ∪ t.parsedNames.toFinset := by
  simp [ofTypes, List.toFinset_append]

end NameCaches

/-! ## What each arm adds under its own name -/

namespace Indices

variable (scalarNames : Finset String) {t : TypeDefinition} {a b : Indices}

/-- **The parsed names of a step** are those before it and the ones its
definition adds. -/
theorem definitionStep_parsedTypedefNames (h : definitionStep scalarNames a (.type t) = .ok b)
    (hU : a.objects t.name.val = none) :
    b.parsedTypedefNames = a.parsedTypedefNames ∪ t.parsedNames.toFinset := by
  rw [definitionStep] at h
  split at h
  · rename_i o hk
    split at h
    · obtain ⟨r, hr, rfl⟩ := objectArm_eq_ok scalarNames h
      rw [objectFields_parsedTypedefNames scalarNames hr]
      simp [TypeDefinition.parsedNames, TypeDefinition.entityObject?, hk, *, registerObject,
        Finset.insert_union, List.toFinset_cons]
    · cases h
      simp [TypeDefinition.parsedNames, TypeDefinition.entityObject?, hk, *, TypeKind.isUnion]
  · rename_i e hk
    cases h
    rw [enumArm_eq]
    simp [TypeDefinition.parsedNames, TypeDefinition.entityObject?, hk, TypeKind.isUnion]
  · rename_i u hk
    obtain ⟨os, -, rfl⟩ := unionArm_eq_ok scalarNames hU h
    rw [copyFields_eq]
    simp [TypeDefinition.parsedNames, TypeDefinition.entityObject?, hk, TypeKind.isUnion,
      UnionPass.after, registerUnion, Finset.insert_eq, Finset.union_comm]
  · cases h

/-- **A step marks its own name virtual** exactly when its definition does. -/
theorem definitionStep_virtual_self (h : definitionStep scalarNames a (.type t) = .ok b)
    (hU : a.objects t.name.val = none) :
    t.name.val ∈ b.virtualTypeNames ↔ t.name.val ∈ a.virtualTypeNames ∨ t.marksVirtual := by
  rw [definitionStep] at h
  split at h
  · rename_i o hk
    split at h
    · obtain ⟨r, hr, rfl⟩ := objectArm_eq_ok scalarNames h
      show t.name.val ∈ r.1.virtualTypeNames ↔ _
      rw [objectFields_virtualTypeNames scalarNames hr]
      simp only [TypeDefinition.marksVirtual, TypeDefinition.entityObject?, hk, *]
      split_ifs <;> simp_all [TypeKind.isEnum, registerObject]
    · cases h
      simp [TypeDefinition.marksVirtual, TypeDefinition.entityObject?, hk, *, TypeKind.isEnum]
  · rename_i e hk
    cases h
    rw [enumArm_eq]
    simp [TypeDefinition.marksVirtual, hk, TypeKind.isEnum]
  · rename_i u hk
    obtain ⟨os, -, rfl⟩ := unionArm_eq_ok scalarNames hU h
    rw [copyFields_eq]
    simp [TypeDefinition.marksVirtual, TypeDefinition.entityObject?, hk, TypeKind.isEnum,
      UnionPass.after, registerUnion]
  · cases h

/-- **The step of the description**: a step takes the description of the
definitions before it to that of the definitions through it. -/
theorem definitionStep_nameCaches {ts : List TypeDefinition}
    (h : definitionStep scalarNames a (.type t) = .ok b) (hf : StepFrame t a b)
    (hU : a.objects t.name.val = none) (ha : a.nameCaches = NameCaches.ofTypes ts) :
    b.nameCaches = NameCaches.ofTypes (ts ++ [t]) := by
  simp only [NameCaches.ext_iff, nameCaches] at ha ⊢
  obtain ⟨ho, he, hu, hv, hp⟩ := ha
  refine ⟨funext fun k => ?_, Finset.ext fun k => ?_, Finset.ext fun k => ?_,
    Finset.ext fun k => ?_, ?_⟩
  · rw [NameCaches.ofTypes_objects_append, ← ho]
    by_cases hk : t.name.val = k
    · subst hk
      simp [hf.objects_self]
    · simp [hk, hf.objects k (Ne.symm hk)]
  · rw [hf.enumNames, he, NameCaches.ofTypes, NameCaches.ofTypes, NameCaches.mem_ofTypes_names]
  · rw [hf.unionNames, hu, NameCaches.ofTypes, NameCaches.ofTypes, NameCaches.mem_ofTypes_names]
  · show k ∈ b.virtualTypeNames ↔ k ∈ (((ts ++ [t]).filter _).map _).toFinset
    have hv' : a.virtualTypeNames =
        ((ts.filter TypeDefinition.marksVirtual).map fun t => t.name.val).toFinset := hv
    rw [NameCaches.mem_ofTypes_names, ← hv']
    by_cases hk : k = t.name.val
    · subst hk
      rw [definitionStep_virtual_self scalarNames h hU]
      simp
    · rw [hf.virtualTypeNames k hk]
      simp [hk]
  · rw [NameCaches.ofTypes_parsedTypedefNames_append, ← hp,
      definitionStep_parsedTypedefNames scalarNames h hU]

/-- **A run ends with the description of its type definitions**, from empty
caches and with distinct type names. -/
theorem definitions_nameCaches {ds : List TypeSystemDefinition} {s' : Indices}
    (h : definitions scalarNames ds Indices.empty = .ok s') (hnd : (declaredNames ds).Nodup) :
    s'.nameCaches = NameCaches.ofTypes (declaredTypes ds) := by
  have := definitions_induction scalarNames
    (I := fun p a => a.nameCaches = NameCaches.ofTypes (declaredTypes p))
    (fun p a d hd hI => by beta_reduce; rwa [declaredTypes_append_of_none hd])
    (fun t _ p a b hR hT hs hf hI => by
      simpa using definitionStep_nameCaches scalarNames hs hf (hR.objects_eq_none hT) hI)
    h Reach.empty (by simpa using hnd) rfl
  simpa using this.1

end Indices

/-! ## The result of `new` -/

/-- **The name caches of `new` are the description of the document's type
definitions**, when their names are distinct.  The union arm hands
`&mut virtual_type_names` to the validator, which is not under src/; the spec
says only that it checks the members' virtual flags, not that it writes the
set, so `checkDerivedUnionIsWellFormed` leaves it as it is and no union is
virtual here. -/
theorem new_nameCaches {scalarNames : Finset String} {doc : ServiceDocument}
    {m : ParsedGraphQLSchema} (h : ParsedGraphQLSchema.new scalarNames (some doc) = .ok m)
    (hnd : (declaredNames doc.definitions).Nodup) :
    m.toIndices.nameCaches = NameCaches.ofTypes doc.typeDefinitions :=
  definitions_nameCaches scalarNames (ParsedGraphQLSchema.new_eq_ok h).1 hnd

/-- The parser test's enum, union and virtual names, read off its declarations:
`AccountLabel` is the one enum, `Person` and `Storage` the unions, and the
enum and `Metadata`, the one entity object with `virtual`, the virtual
names. -/
theorem schema_nameCaches :
    ∃ m, ParsedGraphQLSchema.new ParserTest.scalarNames (some ParserTest.schema) = .ok m ∧
      m.enumNames = {"AccountLabel"} ∧ m.unionNames = {"Person", "Storage"} ∧
      m.virtualTypeNames = {"AccountLabel", "Metadata"} := by
  obtain ⟨m, hm, -⟩ := ParserTest.new_schema
  have h := new_nameCaches hm (by decide)
  simp only [NameCaches.ext_iff, Indices.nameCaches] at h
  exact ⟨m, hm, h.2.1.trans (by decide), h.2.2.1.trans (by decide),
    h.2.2.2.1.trans (by decide)⟩

/-! ## Declaration order -/

theorem eq_of_perm_of_length_le_one {α : Type} {l l' : List α} (hp : l.Perm l')
    (h : l.length ≤ 1) : l = l' :=
  match l, h with
  | [], _ => hp.nil_eq
  | [_], _ => (List.perm_singleton.1 hp.symm).symm

/-- With distinct names, at most one type definition is an entity object of a
given name. -/
theorem length_filterMap_named_le_one : ∀ {ts : List TypeDefinition},
    (ts.map fun t => t.name.val).Nodup → ∀ k,
      (ts.filterMap fun t => if t.name.val = k then t.entityObject? else none).length ≤ 1
  | [], _, _ => Nat.zero_le _
  | t :: ts, hnd, k => by
    rw [List.map_cons, List.nodup_cons] at hnd
    by_cases hk : t.name.val = k
    · have hnil : (ts.filterMap fun t => if t.name.val = k then t.entityObject? else none) = [] :=
        List.filterMap_eq_nil_iff.2 fun t' ht' => by
          rw [if_neg fun h' : t'.name.val = k =>
            hnd.1 (by rw [hk, ← h']; exact List.mem_map_of_mem _ ht')]
      rcases he : t.entityObject? with _ | o <;> simp [List.filterMap_cons, hk, hnil, he]
    · simpa [List.filterMap_cons, hk] using length_filterMap_named_le_one hnd.2 k

/-- **The description does not depend on the order of the type definitions**,
when their names are distinct. -/
theorem NameCaches.ofTypes_perm {ts ts' : List TypeDefinition} (hp : ts.Perm ts')
    (hnd : (ts.map fun t => t.name.val).Nodup) : NameCaches.ofTypes ts = NameCaches.ofTypes ts' :=
  NameCaches.ext
    (funext fun k => congrArg List.getLast? (eq_of_perm_of_length_le_one (hp.filterMap _)
      (length_filterMap_named_le_one hnd k)))
    (List.toFinset_eq_of_perm _ _ ((hp.filter _).map _))
    (List.toFinset_eq_of_perm _ _ ((hp.filter _).map _))
    (List.toFinset_eq_of_perm _ _ ((hp.filter _).map _))
    (List.toFinset_eq_of_perm _ _ (hp.flatMap_right _))

/-- **Reordering the declarations of a document leaves the name caches of
`new` as they are**, when its type names are distinct and both orders are
accepted. -/
theorem new_nameCaches_perm {scalarNames : Finset String} {doc doc' : ServiceDocument}
    {m m' : ParsedGraphQLSchema} (h : ParsedGraphQLSchema.new scalarNames (some doc) = .ok m)
    (h' : ParsedGraphQLSchema.new scalarNames (some doc') = .ok m')
    (hp : doc.definitions.Perm doc'.definitions) (hnd : (declaredNames doc.definitions).Nodup) :
    m.toIndices.nameCaches = m'.toIndices.nameCaches := by
  have hnd' : (declaredNames doc'.definitions).Nodup :=
    (((hp.filterMap _).map _).nodup_iff).1 hnd
  rw [definitions_nameCaches scalarNames (ParsedGraphQLSchema.new_eq_ok h).1 hnd,
    definitions_nameCaches scalarNames (ParsedGraphQLSchema.new_eq_ok h').1 hnd']
  exact NameCaches.ofTypes_perm (hp.filterMap _) hnd

/-- `type Wallet @entity { id: ID! accounts: [Account!]! }`, then
`type Account @entity { id: ID! }`. -/
def walletFirstSchema : ServiceDocument :=
  ⟨[.type ParserTest.wallet, .type (ParserTest.entity "Account" [ParserTest.field "id" "ID"])]⟩

/-- The same two definitions in the other order. -/
def accountFirstSchema : ServiceDocument :=
  ⟨[.type (ParserTest.entity "Account" [ParserTest.field "id" "ID"]), .type ParserTest.wallet]⟩

/-- `new` accepts both orders with the same name caches, although only the
second order gives `Wallet` a join-table entry. -/
theorem walletAccount_nameCaches_perm :
    ∃ m m', ParsedGraphQLSchema.new ParserTest.scalarNames (some walletFirstSchema) = .ok m ∧
      ParsedGraphQLSchema.new ParserTest.scalarNames (some accountFirstSchema) = .ok m' ∧
      m.toIndices.nameCaches = m'.toIndices.nameCaches ∧
      (m.joinTableMeta "Wallet").isSome = false ∧ (m'.joinTableMeta "Wallet").isSome = true := by
  obtain ⟨m, hm, hj⟩ : ∃ m, ParsedGraphQLSchema.new ParserTest.scalarNames
      (some walletFirstSchema) = .ok m ∧ (m.joinTableMeta "Wallet").isSome = false :=
    ⟨_, rfl, by decide⟩
  obtain ⟨m', hm', hj'⟩ : ∃ m', ParsedGraphQLSchema.new ParserTest.scalarNames
      (some accountFirstSchema) = .ok m' ∧ (m'.joinTableMeta "Wallet").isSome = true :=
    ⟨_, rfl, by decide⟩
  exact ⟨m, m', hm, hm', new_nameCaches_perm hm hm' (List.Perm.swap _ _ []) (by decide), hj, hj'⟩

/-! ## The list caches

The object arm is the only one that writes `list_field_types` and
`list_type_defs`, and what it adds depends on the object alone: the type
strings of its list fields, and the object under its name when it has one.
-/

/-- The list fields the step of `t` records: those of an entity object. -/
def TypeDefinition.listFields (t : TypeDefinition) : List FieldDefinition :=
  match t.entityObject? with
  | some o => o.fields.filter isListType
  | none => []

/-- The two list caches. -/
@[ext] structure ListCaches where
  listFieldTypes : Finset String
  listTypeDefs : String → Option TypeDefinition

/-- The list caches of a state of the pass. -/
def Indices.listCaches (s : Indices) : ListCaches := ⟨s.listFieldTypes, s.listTypeDefs⟩

namespace ListCaches

/-- What the step of `t` does to the list caches. -/
def add (c : ListCaches) (t : TypeDefinition) : ListCaches where
  listFieldTypes := c.listFieldTypes ∪ (t.listFields.map listFieldTypeName).toFinset
  listTypeDefs := if t.listFields.isEmpty then c.listTypeDefs
    else Function.update c.listTypeDefs t.name.val (some t)

/-- **The list caches the type definitions `ts` determine**, read off them
without the loop: the type strings of their list fields without `!`, and
under each name the last definition of that name with a list field. -/
def ofTypes (ts : List TypeDefinition) : ListCaches where
  listFieldTypes := (ts.flatMap fun t => t.listFields.map listFieldTypeName).toFinset
  listTypeDefs k := (ts.filter fun t => t.name.val = k && !t.listFields.isEmpty).getLast?

theorem ofTypes_append (ts : List TypeDefinition) (t : TypeDefinition) :
    ofTypes (ts ++ [t]) = (ofTypes ts).add t := by
  refine ListCaches.ext ?_ (funext fun k => ?_)
  · ext k
    simp [ofTypes, add, List.toFinset_append]
  · show (List.filter _ (ts ++ [t])).getLast? = _
    rw [List.filter_append, List.getLast?_append]
    by_cases he : t.listFields.isEmpty
    · simp [add, ofTypes, he]
    · by_cases hk : t.name.val = k
      · subst hk
        simp [add, ofTypes, he]
      · simp [add, ofTypes, he, hk, Function.update_noteq (Ne.symm hk)]

end ListCaches

namespace Indices

variable (scalarNames : Finset String) {t : TypeDefinition} {a b : Indices}

/-- **The step of the list caches**: a step adds what its definition
determines. -/
theorem definitionStep_listCaches (h : definitionStep scalarNames a (.type t) = .ok b)
    (hU : a.objects t.name.val = none) : b.listCaches = a.listCaches.add t := by
  rw [definitionStep] at h
  split at h
  · rename_i o hk
    split at h
    · obtain ⟨r, hr, rfl⟩ := objectArm_eq_ok scalarNames h
      obtain ⟨e₁, e₂⟩ := objectFields_listCaches scalarNames hr
      have hl : t.listFields = o.fields.filter isListType := by
        simp [TypeDefinition.listFields, TypeDefinition.entityObject?, hk, *]
      ext k <;> simp [listCaches, ListCaches.add, e₁, e₂, hl, registerObject]
    · cases h
      have hl : t.listFields = [] := by
        simp [TypeDefinition.listFields, TypeDefinition.entityObject?, hk, *]
      ext k <;> simp [listCaches, ListCaches.add, hl]
  · rename_i e hk
    cases h
    have hl : t.listFields = [] := by
      simp [TypeDefinition.listFields, TypeDefinition.entityObject?, hk]
    rw [enumArm_eq]
    ext k <;> simp [listCaches, ListCaches.add, hl]
  · rename_i u hk
    obtain ⟨os, -, rfl⟩ := unionArm_eq_ok scalarNames hU h
    have hl : t.listFields = [] := by
      simp [TypeDefinition.listFields, TypeDefinition.entityObject?, hk]
    rw [copyFields_eq]
    ext k <;> simp [listCaches, ListCaches.add, hl, UnionPass.after, registerUnion]
  · cases h

/-- **A run ends with the list caches of its type definitions**, from empty
caches and with distinct type names. -/
theorem definitions_listCaches {ds : List TypeSystemDefinition} {s' : Indices}
    (h : definitions scalarNames ds Indices.empty = .ok s') (hnd : (declaredNames ds).Nodup) :
    s'.listCaches = ListCaches.ofTypes (declaredTypes ds) := by
  have := definitions_induction scalarNames
    (I := fun p a => a.listCaches = ListCaches.ofTypes (declaredTypes p))
    (fun p a d hd hI => by beta_reduce; rwa [declaredTypes_append_of_none hd])
    (fun t _ p a b hR hT hs _ hI => by
      simpa [ListCaches.ofTypes_append, hI] using
        definitionStep_listCaches scalarNames hs (hR.objects_eq_none hT))
    h Reach.empty (by simpa using hnd) rfl
  simpa using this.1

end Indices

/-- **The list caches of `new` are the description of the document's type
definitions**, when their names are distinct: `is_list_field_type` holds of
the type strings of the entity objects' list fields, and `is_list_typedef` of
the entity objects with a list field. -/
theorem new_listCaches {scalarNames : Finset String} {doc : ServiceDocument}
    {m : ParsedGraphQLSchema} (h : ParsedGraphQLSchema.new scalarNames (some doc) = .ok m)
    (hnd : (declaredNames doc.definitions).Nodup) :
    m.toIndices.listCaches = ListCaches.ofTypes doc.typeDefinitions :=
  definitions_listCaches scalarNames (ParsedGraphQLSchema.new_eq_ok h).1 hnd

/-- The parser test's list caches: `Wallet` and `Safe` hold `[Account!]!` and
`Vault` holds `[User!]!`, so two type strings and three typedefs, and
`Account` has no list field. -/
theorem schema_listCaches :
    ∃ m, ParsedGraphQLSchema.new ParserTest.scalarNames (some ParserTest.schema) = .ok m ∧
      m.listFieldTypes = {"[Account]", "[User]"} ∧ m.isListTypedef "Wallet" = true ∧
      m.isListTypedef "Vault" = true ∧ m.isListTypedef "Account" = false := by
  obtain ⟨m, hm, -⟩ := ParserTest.new_schema
  have h := new_listCaches hm (by decide)
  simp only [ListCaches.ext_iff, Indices.listCaches] at h
  refine ⟨m, hm, h.1.trans (by decide), ?_, ?_, ?_⟩ <;>
    simp only [ParsedGraphQLSchema.isListTypedef, h.2] <;> decide

end GraphQL
end FuelIndexer
