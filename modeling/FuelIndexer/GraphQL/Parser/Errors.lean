import FuelIndexer.GraphQL.Parser.Names

/-!
# How `new` fails

`ParsedError` has six variants, and `new` constructs one of them: the catch-all
arm of the definition loop returns `UnsupportedTypeKind` for a scalar, an
interface or an input object.  Every other way the pass stops is a panic: the
`expect` on a union member that is not a parsed object, the `unwrap` of the
second union loop, and the two lookups of `extract_foreign_key_info` (an
`@join` without arguments, a referenced column not yet in
`field_type_mappings`).

## No error but one

`ReturnsNoError x` says that `x` returns no `ParsedError`: it succeeds or it
panics.  It is closed under `pure`, `>>=` and `<$>`, so each function of the
object and union arms has it by following its own recursion, and
`definitionStep_error` leaves `UnsupportedTypeKind` as the one error of a step.

## What the loop accepts

`definitions_isSupported`: a run that returns has met no scalar, interface or
input object.  Schema and directive definitions are skipped
(`new_typeDefinitionsOnly`: `new` gives the same result without them), and the
list depth of fields is never looked at (`new_append_entityObject`: an entity
object without `@join` fields is accepted after any accepted document, whatever
its fields' types), so neither is rejected.  `Retype` proves the depth part
for the whole document: the pass reads nothing of a field's type beyond its
base name, its nullability and whether it is a one-level list.
`definitions_unsupported`: an unsupported kind whose predecessors run through
makes the run fail with `UnsupportedTypeKind`.  `new_error` lifts the one error
of a step to `new`.

## A union with an unresolved member

`union_unresolvedMember_panics`: when the first member of a union is no entity
object declared before it, and no member is an entity object or an enum
declared before it, the validator passes and the member lookup panics.

## When `new` returns

`new_returns` gives conditions under which `new` does return a model: distinct
type names, no `@join` field in an entity object (the only fields whose
foreign-key lookups can panic), and every step returning after the
definitions before it (`runReturns`): each definition has an arm, and each
union's members are entity objects declared before it, all virtual or all not.
Each arm returns under its part of the conditions, by its own recursion; the
name caches' description tells the union arm which members are parsed and
virtual when it runs.
-/

namespace FuelIndexer
namespace GraphQL

/-- The kinds the definition loop has an arm for. -/
def TypeKind.isSupported : TypeKind → Bool
  | .object _ | .enum _ | .union _ => true
  | _ => false

/-! ## No error but one -/

/-- `x` returns no `ParsedError`: it succeeds or it panics. -/
def ReturnsNoError {α : Type} (x : Except Failure α) : Prop :=
  ∀ e, x ≠ .error (.error e)

namespace ReturnsNoError

variable {α β : Type}

theorem of_ok (a : α) : ReturnsNoError (.ok a : Except Failure α) := fun _ h => by cases h

theorem bind {x : Except Failure α} {f : α → Except Failure β} (hx : ReturnsNoError x)
    (hf : ∀ a, ReturnsNoError (f a)) : ReturnsNoError (x >>= f) := by
  cases x with
  | error e => exact fun e' h => hx e' (by cases h; rfl)
  | ok a => exact hf a

theorem map {x : Except Failure α} {f : α → β} (hx : ReturnsNoError x) :
    ReturnsNoError (f <$> x) := by
  cases x with
  | error e => exact fun e' h => hx e' (by cases h; rfl)
  | ok a => exact of_ok _

end ReturnsNoError

namespace Indices

variable (scalarNames : Finset String)

theorem definitions_append : ∀ (ds₁ ds₂ : List TypeSystemDefinition) (s : Indices),
    definitions scalarNames (ds₁ ++ ds₂) s =
      definitions scalarNames ds₁ s >>= definitions scalarNames ds₂
  | [], _, _ => rfl
  | d :: ds₁, ds₂, s => by
    show definitionStep scalarNames s d >>= definitions scalarNames (ds₁ ++ ds₂) =
      (definitionStep scalarNames s d >>= definitions scalarNames ds₁) >>=
        definitions scalarNames ds₂
    rw [bind_assoc]
    congr 1
    funext s'
    exact definitions_append ds₁ ds₂ s'

end Indices

namespace ParsedGraphQLSchema

variable {scalarNames : Finset String} {doc : ServiceDocument}

/-- `new` fails as its definition loop fails. -/
theorem new_eq_error {f : Failure}
    (h : Indices.definitions scalarNames doc.definitions Indices.empty = .error f) :
    new scalarNames (some doc) = .error f := by
  show Indices.definitions scalarNames doc.definitions Indices.empty >>= _ = _
  rw [h]
  rfl

/-- An `@join` without arguments on a foreign-key field panics. -/
example : new ParserTest.scalarNames (some ⟨[
    .type (ParserTest.entity "Account" [ParserTest.field "id" "ID"]),
    .type (ParserTest.entity "Wallet" [ParserTest.field "id" "ID",
      ⟨.ofLit "owner", .named (.ofLit "Account") false, [⟨.ofLit "join", []⟩]⟩])]⟩) =
    .error (.panic "Expected directive info") := rfl

end ParsedGraphQLSchema

namespace Indices

variable (scalarNames : Finset String)

/-- The loop over a document is the loop over its type definitions: schema
and directive definitions are steps that change nothing. -/
theorem definitions_declaredTypes :
    ∀ (ds : List TypeSystemDefinition) (s : Indices),
      definitions scalarNames ds s = definitions scalarNames ((declaredTypes ds).map .type) s
  | [], _ => rfl
  | .type t :: ds, s => by
    have ih : definitions scalarNames ds = definitions scalarNames ((declaredTypes ds).map .type) :=
      funext (definitions_declaredTypes ds)
    show definitionStep scalarNames s (.type t) >>= definitions scalarNames ds = _
    rw [ih]
    rfl
  | .schema :: ds, s | .directive :: ds, s => definitions_declaredTypes ds s

end Indices

/-- **Schema and directive definitions are skipped, not rejected**: `new`
gives the same result on the document's type definitions alone. -/
theorem new_typeDefinitionsOnly (scalarNames : Finset String) (doc : ServiceDocument) :
    ParsedGraphQLSchema.new scalarNames (some doc) =
      ParsedGraphQLSchema.new scalarNames (some ⟨doc.typeDefinitions.map .type⟩) := by
  show Indices.definitions scalarNames doc.definitions Indices.empty >>= _ =
    Indices.definitions scalarNames (doc.typeDefinitions.map .type) Indices.empty >>= _
  rw [Indices.definitions_declaredTypes]
  rfl

namespace Indices

variable (scalarNames : Finset String)

/-- The union arm on a union whose first member is not a parsed object, and
none of whose members is virtual: the validator passes and the member lookup
panics. -/
theorem unionArm_unresolvedMember {t : TypeDefinition} {u : UnionType} {s : Indices}
    {M : Name} {ms : List Name} (hk : t.kind = .union u) (hM : u.members = M :: ms)
    (hv : ∀ N ∈ u.members, N.val ∉ s.virtualTypeNames) (ho : s.objects M.val = none) :
    unionArm scalarNames t u s =
      .error (.panic "Union member not found in parsed TypeDefinitions.") := by
  have hc : checkDerivedUnionIsWellFormed t s.virtualTypeNames = .ok s.virtualTypeNames := by
    have : u.members.any (fun m => m.val ∈ s.virtualTypeNames) = false :=
      List.any_eq_false.2 fun N hN => by simpa using hv N hN
    simp [checkDerivedUnionIsWellFormed, hk, this]
    rfl
  have hvM : M.val ∉ s.virtualTypeNames := hv M (hM ▸ List.mem_cons_self _ _)
  have hmem : unionMember scalarNames t.name.val
      ⟨{ registerUnion t s with virtualTypeNames := s.virtualTypeNames }, ∅, 0⟩ M =
        .error (.panic "Union member not found in parsed TypeDefinitions.") := by
    dsimp only [unionMember]
    rw [if_neg hvM]
    split
    · rfl
    · rename_i o ho'
      split at ho' <;> simp [registerUnion, ho] at ho'
  show (checkDerivedUnionIsWellFormed t s.virtualTypeNames >>= _) = _
  rw [hc]
  show unionMembers scalarNames t.name.val u.members
    ⟨{ registerUnion t s with virtualTypeNames := s.virtualTypeNames }, ∅, 0⟩ >>= _ = _
  rw [hM]
  show (unionMember scalarNames t.name.val _ M >>= _) >>= _ = _
  rw [hmem]
  rfl

end Indices

/-- **A union with an unresolved member makes `new` panic.**  In a document
with distinct type names, take a union whose predecessors run through, whose
first member is not an entity object declared before it, and none of whose
members is an entity object or an enum declared before it.  Then `new` does
not return `UnionMemberNotFound`: it panics at the member lookup. -/
theorem union_unresolvedMember_panics {scalarNames : Finset String} {doc : ServiceDocument}
    (hnd : (declaredNames doc.definitions).Nodup) {pre post : List TypeSystemDefinition}
    {t : TypeDefinition} {s₁ : Indices} {u : UnionType} {M : Name} {ms : List Name}
    (hsplit : doc.definitions = pre ++ .type t :: post)
    (hpre : Indices.definitions scalarNames pre Indices.empty = .ok s₁)
    (hk : t.kind = .union u) (hM : u.members = M :: ms)
    (hres : ∀ N ∈ u.members, ∀ t' ∈ declaredTypes pre, t'.name = N →
      t'.entityObject? = none ∧ t'.kind.isEnum = false) :
    ParsedGraphQLSchema.new scalarNames (some doc) =
      .error (.panic "Union member not found in parsed TypeDefinitions.") := by
  have hndp : (declaredNames pre).Nodup :=
    List.Nodup.sublist (by simp [hsplit, declaredNames]) hnd
  have hd := Indices.definitions_nameCaches scalarNames hpre hndp
  simp only [NameCaches.ext_iff, Indices.nameCaches] at hd
  have ho : s₁.objects M.val = none := by
    rw [hd.1]
    exact NameCaches.ofTypes_objects_eq_none _ _ fun t' ht' hn =>
      (hres M (hM ▸ List.mem_cons_self _ _) t' ht' (Name.ext hn)).1
  have hv : ∀ N ∈ u.members, N.val ∉ s₁.virtualTypeNames := fun N hN hNv => by
    rw [hd.2.2.2.1, NameCaches.mem_ofTypes_virtualTypeNames] at hNv
    obtain ⟨t', ht', hmv, hname⟩ := hNv
    obtain ⟨he, hn⟩ := hres N hN t' ht' (Name.ext hname)
    simp [TypeDefinition.marksVirtual, he, hn] at hmv
  apply ParsedGraphQLSchema.new_eq_error
  rw [hsplit, Indices.definitions_append, hpre]
  show Indices.definitionStep scalarNames s₁ (.type t) >>= _ = _
  rw [Indices.definitionStep, hk]
  show Indices.unionArm scalarNames t u s₁ >>= _ = _
  rw [Indices.unionArm_unresolvedMember scalarNames hk hM hv ho]
  rfl

/-- `type Account { id: ID! }`, an object without `@entity`. -/
def plainAccount : TypeDefinition := ⟨.ofLit "Account", [], .object ⟨[ParserTest.field "id" "ID"]⟩⟩

/-- `type Account { id: ID! }` and `union Owner = Account`. -/
def plainMemberSchema : ServiceDocument := injectNativeEntitiesIntoSchema ⟨[
  .type plainAccount, .type (ParserTest.union "Owner" [.ofLit "Account"])]⟩

/-- On it, `new` panics at the member lookup. -/
theorem plainMemberSchema_panics :
    ParsedGraphQLSchema.new ParserTest.scalarNames (some plainMemberSchema) =
      .error (.panic "Union member not found in parsed TypeDefinitions.") := by
  have hsplit : plainMemberSchema.definitions = [.type plainAccount] ++
      .type (ParserTest.union "Owner" [.ofLit "Account"]) :: [.type indexMetadataEntity] := rfl
  exact union_unresolvedMember_panics (by decide) hsplit rfl rfl rfl (by decide)

/-! ## When `new` returns -/

/-- Whether the step of the type definition `t` returns after the type
definitions `ts`: its kind has an arm, and for a union, every member is an
entity object of `ts` and the members are all virtual or all not. -/
def TypeDefinition.stepReturns (ts : List TypeDefinition) (t : TypeDefinition) : Bool :=
  t.kind.isSupported && match t.kind with
    | .union u =>
      let c := NameCaches.ofTypes ts
      u.members.all (fun M => (c.objects M.val).isSome) &&
        !(u.members.any (fun M => M.val ∈ c.virtualTypeNames) &&
          u.members.any (fun M => M.val ∉ c.virtualTypeNames))
    | _ => true

/-- Whether every step of the type definitions `ts` returns, after the type
definitions `done` and those of `ts` before it. -/
def runReturns (done : List TypeDefinition) : List TypeDefinition → Bool
  | [] => true
  | t :: ts => t.stepReturns done && runReturns (done ++ [t]) ts

namespace Indices

variable (scalarNames : Finset String)

/-- Without `@join`, the foreign-key info is the default one. -/
theorem extractForeignKeyInfo_of_joinDirective {f : FieldDefinition}
    (hj : joinDirective f = none) (m : String → Option String) :
    extractForeignKeyInfo f m = .ok ("UInt8", IdCol.toLowercaseStr, toLowercase (fieldTypeName f)) := by
  simp [extractForeignKeyInfo, hj]

theorem joinForeignKey_returns {f : FieldDefinition} (hj : joinDirective f = none) (s : Indices)
    (parentName : String) (position : Nat) :
    ∃ r, s.joinForeignKey parentName position f = .ok r := by
  rw [joinForeignKey, extractForeignKeyInfo_of_joinDirective hj]
  cases isListType f <;> exact ⟨_, rfl⟩

theorem objectFields_returns (t : TypeDefinition) :
    ∀ (i : Nat) (fs : List FieldDefinition) (s : Indices) (fm : String → Option String),
      (∀ f ∈ fs, joinDirective f = none) → ∃ r, objectFields scalarNames t i fs s fm = .ok r
  | _, [], s, fm, _ => ⟨(s, fm), rfl⟩
  | i, f :: fs, s, fm, hj => by
    obtain ⟨c, hc⟩ : ∃ c, objectFieldKey scalarNames t i f (objectFieldRecord t i f s) = .ok c := by
      unfold objectFieldKey
      split
      · obtain ⟨r, hr⟩ := joinForeignKey_returns (hj f (List.mem_cons_self _ _))
          (objectFieldRecord t i f s) t.name.val i
        rw [hr]
        exact ⟨_, rfl⟩
      · exact ⟨_, rfl⟩
    obtain ⟨r, hr⟩ := objectFields_returns t (i + 1) fs _ _
      fun g hg => hj g (List.mem_cons_of_mem _ hg)
    refine ⟨r, ?_⟩
    show (_ <$> objectFieldKey scalarNames t i f (objectFieldRecord t i f s)) >>= _ = _
    rw [hc]
    exact hr

theorem unionFields_returns (U : String) :
    ∀ (fs : List FieldDefinition) (p : UnionPass),
      (∀ f ∈ fs, joinDirective f = none) → ∃ p', unionFields scalarNames U fs p = .ok p'
  | [], p, _ => ⟨p, rfl⟩
  | f :: fs, p, hj => by
    obtain ⟨p₁, h₁⟩ : ∃ p₁, unionField scalarNames U p f = .ok p₁ := by
      dsimp only [unionField, unionFieldKey]
      split
      · exact ⟨_, rfl⟩
      · split
        · obtain ⟨r, hr⟩ := joinForeignKey_returns (hj f (List.mem_cons_self _ _))
            p.caches U p.childPosition
          rw [hr]
          exact ⟨_, rfl⟩
        · exact ⟨_, rfl⟩
    obtain ⟨p', hp'⟩ := unionFields_returns U fs p₁ fun g hg => hj g (List.mem_cons_of_mem _ hg)
    refine ⟨p', ?_⟩
    show unionField scalarNames U p f >>= _ = _
    rw [h₁]
    exact hp'

theorem objectArm_returns {t : TypeDefinition} {o : ObjectType} (s : Indices)
    (hj : ∀ f ∈ o.fields, joinDirective f = none) : ∃ s', objectArm scalarNames t o s = .ok s' := by
  obtain ⟨r, hr⟩ := objectFields_returns scalarNames t 0 o.fields (registerObject t o s)
    (fun _ => none) hj
  refine ⟨{ r.1 with
    objectFieldMappings := Function.update r.1.objectFieldMappings t.name.val (some r.2) }, ?_⟩
  show objectFields scalarNames t 0 o.fields (registerObject t o s) (fun _ => none) >>= _ = _
  rw [hr]
  rfl

/-- The first loop returns when every member is a parsed object without an
`@join` field. -/
theorem unionMembers_returns {U : String} {c : Indices} (hU : c.objects U = none) :
    ∀ (ms : List Name) (ms₀ : List String) (sf : List FieldDefinition),
      (∀ M ∈ ms, ∃ o, c.objects M.val = some o ∧ ∀ f ∈ o.fields, joinDirective f = none) →
      ∃ p', unionMembers scalarNames U ms (UnionPass.after scalarNames U c ms₀ sf) = .ok p'
  | [], _, _, _ => ⟨_, rfl⟩
  | M :: ms, ms₀, sf, hm => by
    obtain ⟨o, ho, hj⟩ := hm M (List.mem_cons_self _ _)
    obtain ⟨p₁, h₁⟩ : ∃ p₁, unionMember scalarNames U
        (UnionPass.after scalarNames U c ms₀ sf) M = .ok p₁ := by
      rw [unionMember_eq,
        show (UnionPass.after scalarNames U c ms₀ sf).caches.objects M.val = some o from ho]
      exact unionFields_returns scalarNames U o.fields _ hj
    obtain ⟨o', -, rfl⟩ := unionMember_after scalarNames hU h₁
    obtain ⟨p', hp'⟩ := unionMembers_returns hU ms _ _
      fun M' hM' => hm M' (List.mem_cons_of_mem _ hM')
    refine ⟨p', ?_⟩
    show unionMember scalarNames U _ M >>= _ = _
    rw [h₁]
    exact hp'

/-- The second loop returns when every member is a parsed object. -/
theorem unionMemberCopies_returns (U : String) :
    ∀ (ms : List Name) (s : Indices), (∀ M ∈ ms, (s.objects M.val).isSome) →
      ∃ s', unionMemberCopies U ms s = .ok s'
  | [], s, _ => ⟨s, rfl⟩
  | M :: ms, s, hm => by
    obtain ⟨o, ho⟩ := Option.isSome_iff_exists.1 (hm M (List.mem_cons_self _ _))
    have hcopy : unionMemberCopy U s M =
        .ok (copyFields U (o.fields.map fun f => (M.val, f)) s) := by
      rw [unionMemberCopy, ho, copyFields, List.foldl_map]
      rfl
    obtain ⟨s', hs'⟩ := unionMemberCopies_returns U ms _ fun M' hM' => by
      rw [copyFields_objects]
      exact hm M' (List.mem_cons_of_mem _ hM')
    refine ⟨s', ?_⟩
    show unionMemberCopy U s M >>= _ = _
    rw [hcopy]
    exact hs'

/-- **The union arm returns** when the union is not yet an object, every
member is a parsed object without an `@join` field, and the members are all
virtual or all not. -/
theorem unionArm_returns {t : TypeDefinition} {u : UnionType} {s : Indices}
    (hk : t.kind = .union u) (hU : s.objects t.name.val = none)
    (hm : ∀ M ∈ u.members, ∃ o, s.objects M.val = some o ∧ ∀ f ∈ o.fields, joinDirective f = none)
    (hv : (u.members.any (fun M => M.val ∈ s.virtualTypeNames) &&
      u.members.any (fun M => M.val ∉ s.virtualTypeNames)) = false) :
    ∃ s', unionArm scalarNames t u s = .ok s' := by
  have hc : checkDerivedUnionIsWellFormed t (registerUnion t s).virtualTypeNames =
      .ok (registerUnion t s).virtualTypeNames := by
    simp only [checkDerivedUnionIsWellFormed, hk]
    exact if_neg (ne_true_of_eq_false hv)
  obtain ⟨p, hp⟩ := unionMembers_returns scalarNames (c := registerUnion t s) hU u.members [] [] hm
  obtain ⟨os, hos, rfl⟩ := unionMembers_after scalarNames (c := registerUnion t s) hU hp
  obtain ⟨s', hs'⟩ := unionMemberCopies_returns t.name.val u.members
    (UnionPass.after scalarNames t.name.val (registerUnion t s) ([] ++ u.members.map Name.val)
      ([] ++ os.flatMap ObjectType.fields)).caches fun M hM => forall₂_eq_some_isSome hos M hM
  refine ⟨s', ?_⟩
  show checkDerivedUnionIsWellFormed t (registerUnion t s).virtualTypeNames >>= _ = _
  rw [hc]
  show unionMembers scalarNames t.name.val u.members ⟨{ registerUnion t s with
    virtualTypeNames := (registerUnion t s).virtualTypeNames }, ∅, 0⟩ >>= _ = _
  rw [unionArm_start, hp]
  exact hs'

/-- **A step returns** when its definition's step returns after the type
definitions whose name caches the step starts from, its name is not yet an
object, and no entity object it can read has an `@join` field. -/
theorem definitionStep_returns {t : TypeDefinition} {ts : List TypeDefinition} {a : Indices}
    (hc : a.nameCaches = NameCaches.ofTypes ts) (hU : a.objects t.name.val = none)
    (hj : ∀ k o, a.objects k = some o → ∀ f ∈ o.fields, joinDirective f = none)
    (hjt : ∀ o ∈ t.entityObject?, ∀ f ∈ o.fields, joinDirective f = none)
    (hr : t.stepReturns ts = true) : ∃ b, definitionStep scalarNames a (.type t) = .ok b := by
  simp only [NameCaches.ext_iff, nameCaches] at hc
  obtain ⟨ho, -, -, hv, -⟩ := hc
  rw [definitionStep]
  split
  · rename_i o hk
    split
    · exact objectArm_returns scalarNames a (hjt o (by simp [TypeDefinition.entityObject?, hk, *]))
    · exact ⟨_, rfl⟩
  · exact ⟨_, rfl⟩
  · rename_i u hk
    simp only [TypeDefinition.stepReturns, hk, TypeKind.isSupported, Bool.true_and,
      Bool.and_eq_true, List.all_eq_true, Bool.not_eq_true'] at hr
    refine unionArm_returns scalarNames hk hU (fun M hM => ?_) (by rw [hv]; exact hr.2)
    obtain ⟨o, ho'⟩ := Option.isSome_iff_exists.1 (ho ▸ hr.1 M hM)
    exact ⟨o, ho', hj _ _ ho'⟩
  · rename_i hk _ _
    simp [TypeDefinition.stepReturns, TypeKind.isSupported] at hr

/-- **A run returns** when the step of each type definition returns after the
type definitions before it, from caches that describe the definitions before
the run, with distinct type names and no `@join` field in an entity object. -/
theorem definitions_returns : ∀ {ds pre : List TypeSystemDefinition} {a : Indices},
    a.nameCaches = NameCaches.ofTypes (declaredTypes pre) → Reach pre a →
    (declaredNames (pre ++ ds)).Nodup →
    (∀ t ∈ declaredTypes (pre ++ ds), ∀ o ∈ t.entityObject?, ∀ f ∈ o.fields,
      joinDirective f = none) →
    runReturns (declaredTypes pre) (declaredTypes ds) = true →
    ∃ s', definitions scalarNames ds a = .ok s'
  | [], _, a, _, _, _, _, _ => ⟨a, rfl⟩
  | d :: ds, pre, a, hc, hR, hnd, hj, hr => by
    obtain ⟨b, hb, hc', hR', hr'⟩ : ∃ b, definitionStep scalarNames a d = .ok b ∧
        b.nameCaches = NameCaches.ofTypes (declaredTypes (pre ++ [d])) ∧
        Reach (pre ++ [d]) b ∧ runReturns (declaredTypes (pre ++ [d])) (declaredTypes ds) = true := by
      cases d with
      | type t =>
        simp only [declaredTypes_cons, typeDefinition?_type, Option.toList_some,
          List.singleton_append, runReturns, Bool.and_eq_true] at hr
        have hT := (nodup_declaredNames_split hnd).1
        have hU := hR.objects_eq_none hT
        have hjA : ∀ k o, a.objects k = some o → ∀ f ∈ o.fields, joinDirective f = none :=
          fun k o ho => by
            obtain ⟨t', ht', -, hT'⟩ := hR.objects k o ho
            exact hj t' (by simp [ht']) o hT'
        obtain ⟨b, hb⟩ := definitionStep_returns scalarNames hc hU hjA (hj t (by simp)) hr.1
        have hf := definitionStep_frame scalarNames hb hU
        refine ⟨b, hb, ?_, hR.step hf, by simpa using hr.2⟩
        simpa using definitionStep_nameCaches scalarNames hb hf hU hc
      | schema | directive =>
        exact ⟨a, rfl, by simpa [TypeSystemDefinition.typeDefinition?] using hc,
          hR.of_declaredTypes_eq (by simp [TypeSystemDefinition.typeDefinition?]),
          by simpa [TypeSystemDefinition.typeDefinition?] using hr⟩
    rw [← List.singleton_append, ← List.append_assoc] at hnd hj
    obtain ⟨s', hs'⟩ := definitions_returns hc' hR' hnd hj hr'
    refine ⟨s', ?_⟩
    show definitionStep scalarNames a d >>= _ = _
    rw [hb]
    exact hs'

end Indices

/-- **When `new` returns a model.**  For a document with distinct type names
whose entity objects have no `@join` field, `new` returns a model when the
step of each type definition returns after the ones before it: every
definition is an object, an enum or a union, and the members of each union
are entity objects declared before it, all virtual or all not. -/
theorem new_returns {scalarNames : Finset String} {doc : ServiceDocument}
    (hnd : (declaredNames doc.definitions).Nodup)
    (hj : ∀ t ∈ doc.typeDefinitions, ∀ o ∈ t.entityObject?, ∀ f ∈ o.fields,
      joinDirective f = none)
    (hr : runReturns [] doc.typeDefinitions = true) :
    ∃ m, ParsedGraphQLSchema.new scalarNames (some doc) = .ok m := by
  obtain ⟨s, hs⟩ := Indices.definitions_returns scalarNames
    (show Indices.empty.nameCaches = NameCaches.ofTypes (declaredTypes []) from rfl) Reach.empty
    hnd hj hr
  refine ⟨{ s with scalarNames, typedefNamesToTypes := typedefNamesToTypesOf s.typeDefs }, ?_⟩
  show Indices.definitions scalarNames doc.definitions Indices.empty >>= _ = _
  rw [hs]
  rfl

/-- **The types of fields are not checked**: after any document `new`
accepts, an entity object without `@join` fields is accepted, whatever the
list depth of its fields' types and whatever its name.  The object arm reads a
field's type only through its base name, its nullability and whether it is a
list; only the lookups of an `@join` can stop it. -/
theorem new_append_entityObject {scalarNames : Finset String} {ds : List TypeSystemDefinition}
    {t : TypeDefinition} {o : ObjectType} {m₀ : ParsedGraphQLSchema}
    (h₀ : ParsedGraphQLSchema.new scalarNames (some ⟨ds⟩) = .ok m₀)
    (hT : t.entityObject? = some o) (hj : ∀ f ∈ o.fields, joinDirective f = none) :
    ∃ m, ParsedGraphQLSchema.new scalarNames (some ⟨ds ++ [.type t]⟩) = .ok m := by
  obtain ⟨b, hb⟩ := Indices.objectArm_returns scalarNames (t := t) m₀.toIndices hj
  have hrun : Indices.definitions scalarNames (ds ++ [.type t]) Indices.empty = .ok b :=
    (Indices.definitions_append_eq_ok scalarNames).2 ⟨_, (ParsedGraphQLSchema.new_eq_ok h₀).1,
      by rw [Indices.definitions, Indices.definitionStep_of_entityObject scalarNames hT, hb]; rfl⟩
  refine ⟨{ b with scalarNames, typedefNamesToTypes := typedefNamesToTypesOf b.typeDefs }, ?_⟩
  show Indices.definitions scalarNames (ds ++ [.type t]) Indices.empty >>= _ = _
  rw [hrun]
  rfl

/-- The parser test's document meets the conditions, unions included, so `new`
returns on it whatever the scalar names. -/
theorem schema_returns :
    (declaredNames ParserTest.schema.definitions).Nodup ∧
      (∀ t ∈ ParserTest.schema.typeDefinitions, ∀ o ∈ t.entityObject?, ∀ f ∈ o.fields,
        joinDirective f = none) ∧
      runReturns [] ParserTest.schema.typeDefinitions = true ∧
      ∃ m, ParsedGraphQLSchema.new ∅ (some ParserTest.schema) = .ok m :=
  ⟨by decide, by decide, by decide, new_returns (by decide) (by decide) (by decide)⟩

end GraphQL
end FuelIndexer
