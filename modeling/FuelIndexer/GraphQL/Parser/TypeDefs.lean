import FuelIndexer.GraphQL.Parser.Run

/-!
# `type_defs` and `typedef_names_to_types`

`new` keeps `type_defs` as a `HashMap` and builds `typedef_names_to_types` by
folding over its non-enum entries, in the order the map hands them out, with
an insert under each lowercased name.  The model keeps `type_defs` as a list
in one order; any other order of the same entries is a permutation of it.
This file says which permutations give the same map.

## 1.  What `type_defs` holds

Every step inserts the type it records, an entity object, an enum or a union,
under its name, and a run does so for its declarations in order
(`definitions_typeDefs`).  With distinct declared names the entries are
exactly those types under their names (`mem_typeDefsAfter`).

## 2.  The fold

The fold's value at a key is the last non-enum entry whose lowercased name it
is (`typedefNamesToTypesOf_apply`).  When no two parsed types share a
lowercased name, two such entries are one, the inserts commute, and every
order gives one map, which sends each lowercased name to the one parsed type
that has it (`typedefNamesToTypes_orderFree`).

Without that condition the order decides: `type Foo` and `type FOO` both land
under `foo`, and the later one wins (`caseCollision_graphqlType`).
-/

namespace FuelIndexer
namespace GraphQL

/-! ## What `type_defs` holds -/

/-- Whether the pass records a type in `type_defs`: an entity object, a union or
an enum. -/
def TypeDefinition.registers (t : TypeDefinition) : Bool := t.isParsedType || t.kind.isEnum

/-- `type_defs` after the types `ts`, from `l`: each type the pass records is
inserted under its name. -/
def typeDefsAfter (l : List (String × TypeDefinition)) (ts : List TypeDefinition) :
    List (String × TypeDefinition) :=
  ts.foldl (fun l t => if t.registers then insertEntry l t.name.val t else l) l

@[simp] theorem typeDefsAfter_nil (l : List (String × TypeDefinition)) :
    typeDefsAfter l [] = l := rfl

theorem typeDefsAfter_append (l : List (String × TypeDefinition)) (ts ts' : List TypeDefinition) :
    typeDefsAfter l (ts ++ ts') = typeDefsAfter (typeDefsAfter l ts) ts' :=
  List.foldl_append _ _ _ _

theorem typeDefsAfter_cons (l : List (String × TypeDefinition)) (t : TypeDefinition)
    (ts : List TypeDefinition) : typeDefsAfter l (t :: ts) =
      typeDefsAfter (if t.registers then insertEntry l t.name.val t else l) ts := rfl

theorem typeDefsAfter_singleton (l : List (String × TypeDefinition)) (t : TypeDefinition) :
    typeDefsAfter l [t] = if t.registers then insertEntry l t.name.val t else l := rfl

namespace Indices

variable (scalarNames : Finset String)

/-- **One step of `type_defs`**: the step of a type definition inserts it under
its name when the pass records it, and no other step writes `type_defs`. -/
theorem definitionStep_typeDefs {s s' : Indices} {d : TypeSystemDefinition}
    (h : definitionStep scalarNames s d = .ok s') :
    s'.typeDefs = typeDefsAfter s.typeDefs d.typeDefinition?.toList := by
  cases d with
  | type t =>
    rw [definitionStep] at h
    simp only [TypeSystemDefinition.typeDefinition?, Option.toList_some, typeDefsAfter_singleton,
      TypeDefinition.registers, TypeDefinition.isParsedType, TypeDefinition.entityObject?]
    split at h
    · rename_i o hk
      split at h
      · rename_i he
        obtain ⟨r, hr, rfl⟩ := objectArm_eq_ok scalarNames h
        rw [objectFields_eq scalarNames hr]
        simp [hk, he, registerObject]
      · cases h
        simp [hk, *, TypeKind.isUnion, TypeKind.isEnum]
    · rename_i e hk
      cases h
      rw [enumArm_eq]
      simp [hk, TypeKind.isEnum]
    · rename_i u hk
      obtain ⟨c, os, hc, -, rfl⟩ := unionArm_eq_copyFields scalarNames h
      rw [copyFields_eq, hc]
      simp [hk, TypeKind.isUnion, registerUnion]
    · cases h
  | schema | directive =>
    cases h
    rfl

/-- **A run inserts its declarations in order**, from any caches and with no
condition on the names. -/
theorem definitions_typeDefs : ∀ {ds : List TypeSystemDefinition} {s s' : Indices},
    definitions scalarNames ds s = .ok s' → s'.typeDefs = typeDefsAfter s.typeDefs (declaredTypes ds)
  | [], _, _, h => by cases h; rfl
  | d :: _, _, _, h => by
    obtain ⟨s₁, h₁, h⟩ := Except.bind_eq_ok.1 h
    rw [definitions_typeDefs h, definitionStep_typeDefs scalarNames h₁, declaredTypes_cons,
      typeDefsAfter_append]

end Indices

/-- With distinct names, `type_defs` holds its start and each recorded type under
its name. -/
theorem mem_typeDefsAfter : ∀ {ts : List TypeDefinition} {l : List (String × TypeDefinition)},
    (ts.map fun t => t.name.val).Nodup → (∀ e ∈ l, ∀ t ∈ ts, e.1 ≠ t.name.val) →
      ∀ e, e ∈ typeDefsAfter l ts ↔ e ∈ l ∨ e.2 ∈ ts ∧ e.2.registers ∧ e.1 = e.2.name.val
  | [], _, _, _, e => by simp
  | t :: ts, l, hnd, hl, e => by
    rw [List.map_cons, List.nodup_cons] at hnd
    have hts : ∀ e ∈ l, ∀ t' ∈ ts, e.1 ≠ t'.name.val :=
      fun e he t' ht' => hl e he t' (List.mem_cons_of_mem _ ht')
    rw [typeDefsAfter_cons]
    split_ifs with hr
    · have hfilter : l.filter (fun e => e.1 ≠ t.name.val) = l :=
        List.filter_eq_self.2 fun e he => decide_eq_true (hl e he t (List.mem_cons_self _ _))
      have hnew : ∀ e ∈ (t.name.val, t) :: l, ∀ t' ∈ ts, e.1 ≠ t'.name.val := by
        simp only [List.mem_cons, forall_eq_or_imp]
        exact ⟨fun t' ht' h => hnd.1 (h ▸ List.mem_map_of_mem _ ht'), hts⟩
      rw [insertEntry, hfilter, mem_typeDefsAfter hnd.2 hnew]
      simp only [List.mem_cons]
      constructor
      · rintro ((rfl | he) | ⟨ht, hr', he⟩)
        · exact .inr ⟨.inl rfl, hr, rfl⟩
        · exact .inl he
        · exact .inr ⟨.inr ht, hr', he⟩
      · rintro (he | ⟨rfl | ht, hr', he⟩)
        · exact .inl (.inr he)
        · exact .inl (.inl (Prod.ext he rfl))
        · exact .inr ⟨ht, hr', he⟩
    · rw [mem_typeDefsAfter hnd.2 hts]
      simp only [List.mem_cons]
      constructor
      · rintro (he | ⟨ht, hr', he⟩)
        · exact .inl he
        · exact .inr ⟨.inr ht, hr', he⟩
      · rintro (he | ⟨rfl | ht, hr', he⟩)
        · exact .inl he
        · exact absurd hr' hr
        · exact .inr ⟨ht, hr', he⟩

/-! ## The fold -/

/-- The fold's value at a key is the last non-enum entry whose lowercased name
the key is, or the start's. -/
theorem foldl_typedefNames_apply (k : String) : ∀ (l : List (String × TypeDefinition))
    (acc : String → Option String),
    l.foldl (fun acc e => Function.update acc (toLowercase e.1) (some e.1)) acc k =
      ((l.filter fun e => toLowercase e.1 = k).getLast?.map Prod.fst).or (acc k)
  | [], _ => rfl
  | e :: l, acc => by
    rw [List.foldl_cons, foldl_typedefNames_apply k l, Function.update_apply, List.filter_cons]
    by_cases he : toLowercase e.1 = k
    · simp only [he, if_true, decide_True, List.getLast?_cons]
      cases (l.filter fun e => toLowercase e.1 = k).getLast? <;> rfl
    · simp [he, Ne.symm he]

/-- `typedef_names_to_types` at a key: the last non-enum entry of `type_defs`
whose lowercased name the key is. -/
theorem typedefNamesToTypesOf_apply (l : List (String × TypeDefinition)) (k : String) :
    typedefNamesToTypesOf l k =
      ((l.filter fun e => !e.2.kind.isEnum && toLowercase e.1 = k).getLast?.map Prod.fst) := by
  rw [typedefNamesToTypesOf, foldl_typedefNames_apply, List.filter_filter, Option.or_none]
  congr 3
  funext e
  rw [Bool.and_comm]

/-- When two non-enum entries with one lowercased name are one entry, the fold
is the same over every order of the entries. -/
theorem typedefNamesToTypesOf_perm {l l' : List (String × TypeDefinition)} (hp : l'.Perm l)
    (hU : ∀ x ∈ l, ∀ y ∈ l, !x.2.kind.isEnum → !y.2.kind.isEnum →
      toLowercase x.1 = toLowercase y.1 → x = y) :
    typedefNamesToTypesOf l' = typedefNamesToTypesOf l := by
  refine (hp.filter _).foldl_eq' (fun x hx y hy z => ?_) _
  have hx' := List.mem_filter.1 ((hp.filter _).subset hx)
  have hy' := List.mem_filter.1 ((hp.filter _).subset hy)
  by_cases hxy : toLowercase x.1 = toLowercase y.1
  · rw [hU x hx'.1 y hy'.1 hx'.2 hy'.2 hxy]
  · exact Function.update_comm hxy _ _ z

/-- When two non-enum entries with one lowercased name are one entry, the fold
maps a key to the name of the non-enum entry whose lowercased name it is. -/
theorem typedefNamesToTypesOf_eq_some {l : List (String × TypeDefinition)} {n N : String}
    (hU : ∀ x ∈ l, ∀ y ∈ l, !x.2.kind.isEnum → !y.2.kind.isEnum →
      toLowercase x.1 = toLowercase y.1 → x = y) :
    typedefNamesToTypesOf l n = some N ↔
      ∃ e ∈ l, !e.2.kind.isEnum ∧ toLowercase e.1 = n ∧ e.1 = N := by
  have hlast : ∀ {x k}, (l.filter fun e => !e.2.kind.isEnum && toLowercase e.1 = k).getLast? =
      some x → x ∈ l ∧ !x.2.kind.isEnum ∧ toLowercase x.1 = k := fun hx => by
    simpa using List.mem_of_getLast?_eq_some hx
  rw [typedefNamesToTypesOf_apply, Option.map_eq_some']
  constructor
  · rintro ⟨x, hx, rfl⟩
    obtain ⟨hxl, hxe, hxk⟩ := hlast hx
    exact ⟨x, hxl, hxe, hxk, rfl⟩
  · rintro ⟨e, he, hne, rfl, rfl⟩
    have hF : e ∈ l.filter fun x => !x.2.kind.isEnum && toLowercase x.1 = toLowercase e.1 :=
      List.mem_filter.2 ⟨he, by simp [hne]⟩
    obtain ⟨x, hx⟩ := Option.isSome_iff_exists.1 (List.getLast?_isSome.2 (List.ne_nil_of_mem hF))
    obtain ⟨hxl, hxe, hxk⟩ := hlast hx
    exact ⟨x, hx, congrArg Prod.fst (hU x hxl e he hxe hne hxk)⟩

section Run

variable {scalarNames : Finset String} {doc : ServiceDocument} {m : ParsedGraphQLSchema}

/-- With distinct declared names, the entries of the returned `type_defs` are
the declared types the pass records, under their names. -/
theorem new_mem_typeDefs (h : ParsedGraphQLSchema.new scalarNames (some doc) = .ok m)
    (hnd : (declaredNames doc.definitions).Nodup) (e : String × TypeDefinition) :
    e ∈ m.typeDefs ↔ e.2 ∈ doc.typeDefinitions ∧ e.2.registers ∧ e.1 = e.2.name.val := by
  rw [Indices.definitions_typeDefs scalarNames (ParsedGraphQLSchema.new_eq_ok h).1,
    mem_typeDefsAfter hnd (fun _ he => by cases he)]
  simp [Indices.empty, ServiceDocument.typeDefinitions]

/-- With distinct declared names, the non-enum entries of the returned
`type_defs` are the declared entity objects and unions, under their names. -/
theorem new_typeDefs_parsed (h : ParsedGraphQLSchema.new scalarNames (some doc) = .ok m)
    (hnd : (declaredNames doc.definitions).Nodup) (e : String × TypeDefinition) :
    (e ∈ m.typeDefs ∧ !e.2.kind.isEnum) ↔
      e.2 ∈ doc.typeDefinitions ∧ e.2.isParsedType ∧ e.1 = e.2.name.val := by
  have hE : e.2.isParsedType = true → e.2.kind.isEnum = false :=
    TypeDefinition.isEnum_eq_false_of_isParsedType
  rw [new_mem_typeDefs h hnd, TypeDefinition.registers]
  cases hp : e.2.isParsedType <;> cases he : e.2.kind.isEnum <;> simp_all

/-- **`typedef_names_to_types` does not depend on the order of `type_defs`**
when no two parsed types share a lowercased name: every order of the entries
gives the map `new` returns, and `graphql_type(None, n)` is the name of the one
entity object or union whose lowercased name is `n`. -/
theorem typedefNamesToTypes_orderFree (h : ParsedGraphQLSchema.new scalarNames (some doc) = .ok m)
    (hnd : (declaredNames doc.definitions).Nodup)
    (hlow : ((doc.typeDefinitions.filter TypeDefinition.isParsedType).map
      fun t => toLowercase t.name.val).Nodup) :
    (∀ l, l.Perm m.typeDefs → typedefNamesToTypesOf l = m.typedefNamesToTypes) ∧
      ∀ n N, m.graphqlType none n = some N ↔
        ∃ t ∈ doc.typeDefinitions, t.isParsedType ∧ toLowercase t.name.val = n ∧ t.name.val = N := by
  have hmap : m.typedefNamesToTypes = typedefNamesToTypesOf m.typeDefs := by
    obtain ⟨s, hs, h⟩ := Except.bind_eq_ok.1 h
    cases Except.pure_eq_ok.1 h
    rfl
  have hP := new_typeDefs_parsed h hnd
  have hU : ∀ x ∈ m.typeDefs, ∀ y ∈ m.typeDefs, !x.2.kind.isEnum → !y.2.kind.isEnum →
      toLowercase x.1 = toLowercase y.1 → x = y := by
    intro x hx y hy hxe hye hxy
    obtain ⟨htx, hpx, hkx⟩ := (hP x).1 ⟨hx, hxe⟩
    obtain ⟨hty, hpy, hky⟩ := (hP y).1 ⟨hy, hye⟩
    have := List.inj_on_of_nodup_map hlow (List.mem_filter.2 ⟨htx, hpx⟩)
      (List.mem_filter.2 ⟨hty, hpy⟩) (by rw [← hkx, ← hky]; exact hxy)
    exact Prod.ext (by rw [hkx, hky, this]) this
  refine ⟨fun l hp => hmap ▸ typedefNamesToTypesOf_perm hp hU, fun n N => ?_⟩
  rw [ParsedGraphQLSchema.graphqlType, ParsedGraphQLSchema.typedefType, hmap,
    typedefNamesToTypesOf_eq_some hU]
  constructor
  · rintro ⟨e, he, hne, rfl, rfl⟩
    obtain ⟨ht, hp, hk⟩ := (hP e).1 ⟨he, hne⟩
    exact ⟨e.2, ht, hp, hk ▸ rfl, hk.symm⟩
  · rintro ⟨t, ht, hp, rfl, rfl⟩
    obtain ⟨he, hne⟩ := (hP (t.name.val, t)).2 ⟨ht, hp, rfl⟩
    exact ⟨_, he, hne, rfl, rfl⟩

end Run

/-- In the parser test's schema no two parsed types meet after lowercasing, so
every order of `type_defs` maps `user` to `User`. -/
theorem schema_typedefNamesToTypes :
    ∃ m, ParsedGraphQLSchema.new ParserTest.scalarNames (some ParserTest.schema) = .ok m ∧
      (declaredNames ParserTest.schema.definitions).Nodup ∧
      ((ParserTest.schema.typeDefinitions.filter TypeDefinition.isParsedType).map
        fun t => toLowercase t.name.val).Nodup ∧
      ∀ l, l.Perm m.typeDefs → typedefNamesToTypesOf l "user" = some "User" := by
  obtain ⟨m, hm, -⟩ := ParserTest.new_schema
  have hnd : (declaredNames ParserTest.schema.definitions).Nodup := by decide
  have hlow : ((ParserTest.schema.typeDefinitions.filter TypeDefinition.isParsedType).map
      fun t => toLowercase t.name.val).Nodup := by decide
  have h := typedefNamesToTypes_orderFree hm hnd hlow
  refine ⟨m, hm, hnd, hlow, fun l hl => (congrFun (h.1 l hl) _).trans ((h.2 "user" "User").2
    ⟨ParserTest.entity "User" [ParserTest.field "id" "ID", ParserTest.field "account" "Account",
      ParserTest.field "username" "Charfield"], by decide, by decide, by decide, rfl⟩)⟩

/-- `type Foo @entity { id: ID! }` and `type FOO @entity { id: ID! }`. -/
def caseCollisionSchema : ServiceDocument := injectNativeEntitiesIntoSchema ⟨[
  .type (ParserTest.entity "Foo" [ParserTest.field "id" "ID"]),
  .type (ParserTest.entity "FOO" [ParserTest.field "id" "ID"])]⟩

/-- On `caseCollisionSchema`, `type_defs` handed out in the model's order gives
`graphql_type(None, "foo") = "Foo"`, and in the reverse order `"FOO"`. -/
theorem caseCollision_graphqlType :
    ∃ m, ParsedGraphQLSchema.new ParserTest.scalarNames (some caseCollisionSchema) = .ok m ∧
      m.typeDefs.reverse.Perm m.typeDefs ∧ m.graphqlType none "foo" = some "Foo" ∧
      ({ m with typedefNamesToTypes := typedefNamesToTypesOf m.typeDefs.reverse } :
        ParsedGraphQLSchema).graphqlType none "foo" = some "FOO" :=
  ⟨_, rfl, List.reverse_perm _, rfl, rfl⟩

end GraphQL
end FuelIndexer
