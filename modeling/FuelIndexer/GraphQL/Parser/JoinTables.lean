import FuelIndexer.GraphQL.Parser.Run
import Mathlib.Data.List.Count

/-!
# Join-table metadata

`join_table_meta` is what the SQL layer turns into join tables, one table for
each entry.  Two steps of the pass write it.  An entity object pushes, under
its own name, one entry for each one-level list field whose base type passes
the foreign-key test, at the field's position.  A union drops the entries of
its members and pushes its own, built from the members' merged view.

Each result here is one step's write, read through the run lemmas: the step
of the type that owns the entry says what it pushed, and the key frame of the
steps after it says that they left it alone.

* `unionMember_joinTableMeta_eq_none`: a union's members keep no entry.
* `objectJoinTableMeta_eq` and `unionJoinTableMeta_eq`: the entries an entity
  object or a union ends with are those of a sublist of its list fields, and
  which list fields that sublist must hold.  `joinEntries_of_sublist` turns
  this into the shape of the entries: rising positions, one entry a position.
-/

namespace FuelIndexer
namespace GraphQL

open Indices

variable {scalarNames : Finset String} {doc : ServiceDocument} {m : ParsedGraphQLSchema}

/-! ## Positions

Both steps push, for some positions `i` of a list of fields in increasing
order, the entry `joinEntry P i f` of the field `f` at `i`.  So the positions
of the entries rise strictly, and each position has one entry. -/

theorem positions_of_sublist_enum {P : String} {l : List FieldDefinition}
    {S : List (ℕ × FieldDefinition)} (hS : S.Sublist l.enum) :
    ∃ is : List ℕ, is.Pairwise (· < ·) ∧
      (S.map fun e => joinEntry P e.1 e.2).map (fun e => e.parent.childPosition) = is.map some :=
  ⟨S.map Prod.fst, List.Pairwise.sublist (by simpa using hS.map Prod.fst)
    (List.pairwise_lt_range l.length), by simp [joinEntry, Function.comp_def]⟩

theorem countP_position_eq_one {E : List JoinTableMeta} {is : List ℕ}
    (hs : is.Pairwise (· < ·)) (hE : E.map (fun e => e.parent.childPosition) = is.map some)
    {x : JoinTableMeta} (hx : x ∈ E) {i : ℕ} (hi : x.parent.childPosition = some i) :
    E.countP (fun e => e.parent.childPosition = some i) = 1 := by
  have hmem : i ∈ is := by
    have : some i ∈ is.map some := hE ▸ List.mem_map.2 ⟨x, hx, hi⟩
    simpa using this
  have hc : E.countP (fun e => e.parent.childPosition = some i) = is.count i :=
    calc E.countP (fun e => e.parent.childPosition = some i)
        = (E.map fun e => e.parent.childPosition).countP (fun p => p = some i) := by
          rw [List.countP_map]; rfl
      _ = (is.map some).countP (fun p => p = some i) := by rw [hE]
      _ = is.count i := by
        rw [List.countP_map, List.count]
        congr 1
        funext j
        simp only [Function.comp, Option.some.injEq]
        rfl
  rw [hc, List.count_eq_one_of_mem (hs.imp Nat.ne_of_lt) hmem]

theorem mem_enum_getElem {l : List FieldDefinition} {x : ℕ × FieldDefinition} (hx : x ∈ l.enum) :
    ∃ hi : x.1 < l.length, l[x.1] = x.2 := by
  obtain ⟨hi, he⟩ := List.getElem?_eq_some_iff.1 (List.mem_enum_iff_getElem?.1 hx)
  exact ⟨hi, he⟩

/-- **Entries pushed for a sublist of the list fields of `l`**: their
positions rise strictly, each is the entry of a list field of `l` at its
position, and a position with an entry has exactly one. -/
theorem joinEntries_of_sublist {P : String} {l : List FieldDefinition}
    {S : List (ℕ × FieldDefinition)} (hS : S.Sublist (l.enum.filter fun e => isListType e.2)) :
    let E := S.map fun e => joinEntry P e.1 e.2
    (∃ is : List ℕ, is.Pairwise (· < ·) ∧ E.map (fun e => e.parent.childPosition) = is.map some) ∧
      (∀ e ∈ E, ∃ i, ∃ hi : i < l.length, e = joinEntry P i l[i] ∧ isListType l[i] = true) ∧
      ∀ i f, joinEntry P i f ∈ E → E.countP (fun e => e.parent.childPosition = some i) = 1 := by
  have hS' : S.Sublist l.enum := hS.trans (List.filter_sublist _)
  obtain ⟨is, his, hpos⟩ := positions_of_sublist_enum (P := P) hS'
  refine ⟨⟨is, his, hpos⟩, fun e he => ?_, fun i f hmem =>
    countP_position_eq_one his hpos hmem (by simp [joinEntry])⟩
  obtain ⟨x, hx, rfl⟩ := List.mem_map.1 he
  obtain ⟨hi, hfx⟩ := mem_enum_getElem (hS'.subset hx)
  exact ⟨x.1, hi, by rw [hfx], by rw [hfx]; exact (List.mem_filter.1 (hS.subset hx)).2⟩

/-! ## Union members -/

/-- **A union's members keep no join-table entry.**  When the union's step
comes, each member is a parsed object, so it is declared before the union and
never after it; the step drops its entry, and no later step declares it. -/
theorem unionMember_joinTableMeta_eq_none
    (h : ParsedGraphQLSchema.new scalarNames (some doc) = .ok m)
    (hnd : (declaredNames doc.definitions).Nodup) {t : TypeDefinition} {u : UnionType}
    (ht : t ∈ doc.typeDefinitions) (hk : t.kind = .union u) {M : Name} (hM : M ∈ u.members) :
    m.joinTableMeta M.val = none := by
  obtain ⟨pre, post, hsplit⟩ := List.append_of_mem (mem_declaredTypes.1 ht)
  obtain ⟨s₁, s₂, hr⟩ := definitions_at scalarNames (ParsedGraphQLSchema.new_eq_ok h).1 hnd hsplit
  have hmem : M.val ∈ t.memberNames := by
    simpa [TypeDefinition.memberNames, hk] using List.mem_map_of_mem Name.val hM
  obtain ⟨o, ho⟩ := Option.isSome_iff_exists.1 (hr.frame.members _ hmem)
  obtain ⟨t', ht', hname, -⟩ := hr.reach_before.objects _ _ ho
  have hMpre : M.val ∈ declaredNames pre := List.mem_map.2 ⟨t', ht', hname⟩
  have h₂ : s₂.joinTableMeta M.val = none := by
    rw [hr.frame.joinTableMeta _ (fun he => hr.fresh (he ▸ hMpre)), if_pos hmem]
  rcases (hr.keyFrame_after (K := M) (hr.not_mem_post hMpre)).joinTableMeta with h' | h'
  · exact h'.trans h₂
  · exact h'

/-- The parser test's own check: `Safe` and `Vault`, the members of `Storage`,
have no entry. -/
theorem storage_members_joinTableMeta :
    ∃ m, ParsedGraphQLSchema.new ParserTest.scalarNames (some ParserTest.schema) = .ok m ∧
      m.joinTableMeta "Safe" = none ∧ m.joinTableMeta "Vault" = none := by
  obtain ⟨m, hm, -⟩ := ParserTest.new_schema
  have hnd : (declaredNames ParserTest.schema.definitions).Nodup := by decide
  have ht : ParserTest.storage ∈ ParserTest.schema.typeDefinitions := by decide
  exact ⟨m, hm, unionMember_joinTableMeta_eq_none hm hnd ht rfl (M := .ofLit "Safe") (by decide),
    unionMember_joinTableMeta_eq_none hm hnd ht rfl (M := .ofLit "Vault") (by decide)⟩

/-! ## Entity objects -/

/-- The join-table entries of an entity object that is no union's member, at
the end of the pass: the entries of a sublist of its list fields, holding
every list field whose base type is the object or an entity object or union
declared before it, not a built-in scalar and not virtual on the returned
model.  The object's ordered fields are its fields with their positions. -/
theorem objectJoinTableMeta_eq (h : ParsedGraphQLSchema.new scalarNames (some doc) = .ok m)
    (hnd : (declaredNames doc.definitions).Nodup) {pre post : List TypeSystemDefinition}
    {t : TypeDefinition} {o : ObjectType} (hsplit : doc.definitions = pre ++ .type t :: post)
    (hT : t.entityObject? = some o)
    (hnm : ∀ t' ∈ doc.typeDefinitions, t.name.val ∉ t'.memberNames) :
    ∃ S : List (ℕ × FieldDefinition), S.Sublist (o.fields.enum.filter fun e => isListType e.2) ∧
      (m.joinTableMeta t.name.val).getD [] = S.map (fun e => joinEntry t.name.val e.1 e.2) ∧
      (m.objectOrderedFields t.name.val).getD [] = o.fields.enum.map (fun e => ⟨e.2, e.1⟩) ∧
      ∀ i, ∀ hi : i < o.fields.length, isListType o.fields[i] = true →
        (fieldTypeName o.fields[i] = t.name.val ∨ ∃ t' ∈ declaredTypes pre,
          t'.name.val = fieldTypeName o.fields[i] ∧ t'.isParsedType) →
        fieldTypeName o.fields[i] ∉ scalarNames →
        m.isVirtualTypedef (fieldTypeName o.fields[i]) = false →
        joinEntry t.name.val i o.fields[i] ∈ (m.joinTableMeta t.name.val).getD [] := by
  obtain ⟨hrun, -⟩ := ParsedGraphQLSchema.new_eq_ok h
  obtain ⟨s₁, s₂, hr⟩ := definitions_at scalarNames hrun hnd hsplit
  have hstep := hr.step
  rw [definitionStep_of_entityObject scalarNames hT] at hstep
  have hkf₁ := hr.keyFrame_before (K := t.name) hr.fresh
  have hj₁ : s₁.joinTableMeta t.name.val = none := by
    rcases hkf₁.joinTableMeta with h' | h' <;> exact h'
  obtain ⟨S, hS, hE₂, hcomp⟩ := objectArm_joinTableMeta scalarNames hstep hj₁
  have hE : (m.joinTableMeta t.name.val).getD [] = S.map fun e => joinEntry t.name.val e.1 e.2 := by
    rw [← hE₂, definitions_joinTableMeta_of_not_member scalarNames hr.last
      (fun t' ht' => hnm t' (by simp [ServiceDocument.typeDefinitions, hsplit, ht']))
      hr.after hr.reach_after hr.nodup]
  refine ⟨S, hS, hE, ?_, fun i hi hl hN hsc hv => ?_⟩
  · exact hr.objectOrderedFields_eq hT
  · have hp : t.isParsedType = true := by simp [TypeDefinition.isParsedType, hT]
    obtain ⟨hNp, hNe, hNpost⟩ := hr.earlier hp hN
    have hK := fieldTypeName_eq_baseName o.fields[i]
    have hgate : s₂.isPossibleForeignKey scalarNames (fieldTypeName o.fields[i]) = true := by
      refine Indices.isPossibleForeignKey_eq_true.2 ⟨?_, hsc, hNe, fun hvir => ?_⟩
      · rcases Finset.mem_insert.1 hNp with he | he
        · exact he ▸ hr.frame.parsed_self hp
        · exact hr.frame.parsed he
      · rw [hK, ← Bool.not_eq_true, ParsedGraphQLSchema.isVirtualTypedef_eq_true] at hv
        rw [hK] at hvir hNe
        exact hv ((hr.virtual_after (hK ▸ hNpost) hNe).2 hvir)
    rw [hE, ← hE₂]
    exact hcomp (i, o.fields[i]) (List.mem_enum_iff_getElem?.2 (by simp [hi])) hl hNp hgate

/-- **The join-table entries of an entity object** that is no union's member,
at the end of the pass.  Their positions rise strictly.  Each is the
`joinEntry` of a one-level list field at its position `i`, and the object's
ordered fields hold that field at `i`.  A one-level list field gets exactly
one entry when its base type is the object itself or an entity object or
union declared before it, is not a built-in scalar, and is not virtual on the
returned model. -/
theorem objectJoinTableMeta_spec (h : ParsedGraphQLSchema.new scalarNames (some doc) = .ok m)
    (hnd : (declaredNames doc.definitions).Nodup) {pre post : List TypeSystemDefinition}
    {t : TypeDefinition} {o : ObjectType} (hsplit : doc.definitions = pre ++ .type t :: post)
    (hT : t.entityObject? = some o)
    (hnm : ∀ t' ∈ doc.typeDefinitions, t.name.val ∉ t'.memberNames) :
    (∃ is : List ℕ, is.Pairwise (· < ·) ∧
      ((m.joinTableMeta t.name.val).getD []).map (fun e => e.parent.childPosition) =
        is.map some) ∧
    (∀ e ∈ (m.joinTableMeta t.name.val).getD [], ∃ i, ∃ hi : i < o.fields.length,
      e = joinEntry t.name.val i o.fields[i] ∧ isListType o.fields[i] = true ∧
      ((m.objectOrderedFields t.name.val).getD [])[i]? = some ⟨o.fields[i], i⟩) ∧
    (∀ i, ∀ hi : i < o.fields.length, isListType o.fields[i] = true →
      (fieldTypeName o.fields[i] = t.name.val ∨ ∃ t' ∈ declaredTypes pre,
        t'.name.val = fieldTypeName o.fields[i] ∧ t'.isParsedType) →
      fieldTypeName o.fields[i] ∉ scalarNames →
      m.isVirtualTypedef (fieldTypeName o.fields[i]) = false →
      joinEntry t.name.val i o.fields[i] ∈ (m.joinTableMeta t.name.val).getD [] ∧
      ((m.joinTableMeta t.name.val).getD []).countP
        (fun e => e.parent.childPosition = some i) = 1) := by
  obtain ⟨S, hS, hE, hO, hcomp⟩ := objectJoinTableMeta_eq h hnd hsplit hT hnm
  obtain ⟨hpos, hsound, hcount⟩ := joinEntries_of_sublist (P := t.name.val) hS
  rw [← hE] at hpos hsound hcount
  refine ⟨hpos, fun e he => ?_, fun i hi hl hN hsc hv => ?_⟩
  · obtain ⟨i, hi, rfl, hl⟩ := hsound e he
    exact ⟨i, hi, rfl, hl, by simp [hO, List.getElem?_enum, hi]⟩
  · have hmem := hcomp i hi hl hN hsc hv
    exact ⟨hmem, hcount _ _ hmem⟩

/-- The parser test's check on `Wallet`: its entry for `accounts`, at position 1,
is `JoinTableMeta::new("wallet", "id", "account", "id", Some(1))`, and it is the
only entry there. -/
theorem wallet_joinTableMeta :
    ∃ m, ParsedGraphQLSchema.new ParserTest.scalarNames (some ParserTest.schema) = .ok m ∧
      JoinTableMeta.new "wallet" "id" "account" "id" (some 1) ∈ (m.joinTableMeta "Wallet").getD [] ∧
      ((m.joinTableMeta "Wallet").getD []).countP
        (fun e => e.parent.childPosition = some 1) = 1 := by
  obtain ⟨m, hm, -, hv, -⟩ := ParserTest.new_schema
  have hsplit : ParserTest.schema.definitions = ParserTest.schema.definitions.take 6 ++
      .type ParserTest.wallet :: ParserTest.schema.definitions.drop 7 := rfl
  have hspec := objectJoinTableMeta_spec hm (by decide) hsplit rfl (by decide)
  exact ⟨m, hm, hspec.2.2 1 (by decide) (by decide) (.inr (by decide)) (by decide) hv⟩

/-- **Two list fields of one object with the same base type share a join
table.**  Both get an entry, at their two positions, and the entries name the
same table: the pass pushes one entry for each list field and never compares
table names. -/
theorem objectJoinTableMeta_tableName_collision
    (h : ParsedGraphQLSchema.new scalarNames (some doc) = .ok m)
    (hnd : (declaredNames doc.definitions).Nodup) {pre post : List TypeSystemDefinition}
    {t : TypeDefinition} {o : ObjectType} (hsplit : doc.definitions = pre ++ .type t :: post)
    (hT : t.entityObject? = some o)
    (hnm : ∀ t' ∈ doc.typeDefinitions, t.name.val ∉ t'.memberNames)
    {i j : ℕ} (hij : i ≠ j) (hi : i < o.fields.length) (hj : j < o.fields.length)
    (hli : isListType o.fields[i] = true) (hlj : isListType o.fields[j] = true)
    (hsame : fieldTypeName o.fields[j] = fieldTypeName o.fields[i])
    (hN : fieldTypeName o.fields[i] = t.name.val ∨ ∃ t' ∈ declaredTypes pre,
      t'.name.val = fieldTypeName o.fields[i] ∧ t'.isParsedType)
    (hsc : fieldTypeName o.fields[i] ∉ scalarNames)
    (hv : m.isVirtualTypedef (fieldTypeName o.fields[i]) = false) :
    ∃ e₁ ∈ (m.joinTableMeta t.name.val).getD [], ∃ e₂ ∈ (m.joinTableMeta t.name.val).getD [],
      e₁ ≠ e₂ ∧ e₁.tableName = e₂.tableName := by
  obtain ⟨-, -, -, -, hcomp⟩ := objectJoinTableMeta_eq h hnd hsplit hT hnm
  have hne : joinEntry t.name.val i o.fields[i] ≠ joinEntry t.name.val j o.fields[j] := by
    intro he
    have := congrArg (fun e : JoinTableMeta => e.parent.childPosition) he
    simp only [joinEntry, JoinTableMeta.new_parent_childPosition, Option.some.injEq] at this
    exact hij this
  refine ⟨_, hcomp i hi hli hN hsc hv, _, hcomp j hj hlj (hsame ▸ hN) (hsame ▸ hsc) (hsame ▸ hv),
    hne, ?_⟩
  simp [JoinTableMeta.tableName, JoinTableMeta.parentTableName, JoinTableMeta.childTableName,
    joinEntry, JoinTableMeta.new, hsame]

/-- `type Account @entity { id: ID! }` and
`type Wallet @entity { id: ID! main: [Account!]! backup: [Account!]! }`. -/
def sharedJoinTableSchema : ServiceDocument := injectNativeEntitiesIntoSchema ⟨[
  .type (ParserTest.entity "Account" [ParserTest.field "id" "ID"]),
  .type (ParserTest.entity "Wallet" [ParserTest.field "id" "ID",
    ParserTest.listField "main" "Account", ParserTest.listField "backup" "Account"])]⟩

/-- On `sharedJoinTableSchema` the two entries of `Wallet` both name the table
`wallets_accounts`. -/
theorem sharedJoinTableSchema_collision :
    ∃ m, ParsedGraphQLSchema.new ParserTest.scalarNames (some sharedJoinTableSchema) = .ok m ∧
      ∃ e₁ ∈ (m.joinTableMeta "Wallet").getD [], ∃ e₂ ∈ (m.joinTableMeta "Wallet").getD [],
        e₁ ≠ e₂ ∧ e₁.tableName = e₂.tableName := by
  obtain ⟨m, hm⟩ : ∃ m, ParsedGraphQLSchema.new ParserTest.scalarNames
    (some sharedJoinTableSchema) = .ok m := ⟨_, rfl⟩
  have hv : m.isVirtualTypedef "Account" = false := by
    have h : (fun m => m.isVirtualTypedef "Account") <$>
        ParsedGraphQLSchema.new ParserTest.scalarNames (some sharedJoinTableSchema) = .ok false :=
      rfl
    rw [hm] at h
    exact Except.ok.inj h
  have hsplit : sharedJoinTableSchema.definitions = sharedJoinTableSchema.definitions.take 1 ++
      .type (ParserTest.entity "Wallet" [ParserTest.field "id" "ID",
        ParserTest.listField "main" "Account", ParserTest.listField "backup" "Account"]) ::
      sharedJoinTableSchema.definitions.drop 2 := rfl
  exact ⟨m, hm, objectJoinTableMeta_tableName_collision hm (by decide) hsplit rfl (by decide)
    (i := 1) (j := 2) (by decide) (by decide) (by decide) (by decide) (by decide) rfl
    (.inr (by decide)) (by decide) hv⟩

/-! ## Unions -/

/-- The join-table entries of a union at the end of the pass: the entries of a
sublist of the list fields of its members' merged view, holding every list
field whose base type is the union or an entity object or union declared
before it, not a built-in scalar and not virtual on the returned model. -/
theorem unionJoinTableMeta_eq (h : ParsedGraphQLSchema.new scalarNames (some doc) = .ok m)
    (hnd : (declaredNames doc.definitions).Nodup) {pre post : List TypeSystemDefinition}
    {t : TypeDefinition} {u : UnionType} (hsplit : doc.definitions = pre ++ .type t :: post)
    (hk : t.kind = .union u) {os : List ObjectType}
    (hos : List.Forall₂ (fun M o => ∃ t' ∈ doc.typeDefinitions, t'.name = M ∧
      t'.entityObject? = some o) u.members os) :
    ∃ S : List (ℕ × FieldDefinition),
      S.Sublist ((mergedView (os.flatMap ObjectType.fields)).enum.filter fun e => isListType e.2) ∧
      (m.joinTableMeta t.name.val).getD [] = S.map (fun e => joinEntry t.name.val e.1 e.2) ∧
      ∀ p, ∀ hp : p < (mergedView (os.flatMap ObjectType.fields)).length,
        isListType (mergedView (os.flatMap ObjectType.fields))[p] = true →
        (fieldTypeName (mergedView (os.flatMap ObjectType.fields))[p] = t.name.val ∨
          ∃ t' ∈ declaredTypes pre,
            t'.name.val = fieldTypeName (mergedView (os.flatMap ObjectType.fields))[p] ∧
            t'.isParsedType) →
        fieldTypeName (mergedView (os.flatMap ObjectType.fields))[p] ∉ scalarNames →
        m.isVirtualTypedef (fieldTypeName (mergedView (os.flatMap ObjectType.fields))[p]) = false →
        joinEntry t.name.val p (mergedView (os.flatMap ObjectType.fields))[p] ∈
          (m.joinTableMeta t.name.val).getD [] := by
  obtain ⟨hrun, -⟩ := ParsedGraphQLSchema.new_eq_ok h
  obtain ⟨s₁, s₂, hr⟩ := definitions_at scalarNames hrun hnd hsplit
  set V := mergedView (os.flatMap ObjectType.fields)
  set c := registerUnion t s₁
  have hs₂ := hr.unionStep hk (by simpa [ServiceDocument.typeDefinitions, hsplit] using hos)
  have hkf₁ := hr.keyFrame_before (K := t.name) hr.fresh
  have hj₁ : s₁.joinTableMeta t.name.val = none := by
    rcases hkf₁.joinTableMeta with h' | h' <;> exact h'
  have ho₂ : s₂.objects t.name.val = none := by
    rw [hr.frame.objects_self, hkf₁.objects]
    simp [TypeDefinition.entityObject?, hk, Indices.empty]
  have hE : (m.joinTableMeta t.name.val).getD [] =
      joinEntries t.name.val (c.isPossibleForeignKey scalarNames) V := by
    rw [(hr.keyFrame_after (K := t.name) hr.last).joinTableMeta_of_objects ho₂, hs₂,
      copyFields_eq]
    simp [UnionPass.after, getD_pushEntries_self, dropKeys, c, registerUnion, hj₁]
  refine ⟨_, ?_, hE, fun p hp hl hN hsc hv => ?_⟩
  · rw [← List.filter_filter]
    exact List.filter_sublist _
  · have hp' : t.isParsedType = true := by simp [TypeDefinition.isParsedType, hk, TypeKind.isUnion]
    obtain ⟨hNp, hNe, hNpost⟩ := hr.earlier hp' hN
    have hK := fieldTypeName_eq_baseName V[p]
    have hNe₁ : fieldTypeName V[p] ∉ s₁.enumNames :=
      fun he => hNe ((hr.frame.enumNames _).2 (.inl he))
    have hNv₁ : fieldTypeName V[p] ∉ s₁.virtualTypeNames := by
      intro hvir
      by_cases hT : fieldTypeName V[p] = t.name.val
      · exact Finset.not_mem_empty _ (hkf₁.virtualTypeNames.1 (hT ▸ hvir))
      · rw [hK, ← Bool.not_eq_true, ParsedGraphQLSchema.isVirtualTypedef_eq_true] at hv
        rw [hK] at hvir hNe hT
        exact hv ((hr.virtual_after (hK ▸ hNpost) hNe).2 ((hr.frame.virtualTypeNames _ hT).2 hvir))
    have hgate : c.isPossibleForeignKey scalarNames (fieldTypeName V[p]) = true :=
      Indices.isPossibleForeignKey_eq_true.2 ⟨hNp, hsc, hNe₁, hNv₁⟩
    rw [hE, joinEntries]
    have hx : (p, V[p]) ∈ V.enum := List.mem_enum_iff_getElem?.2 (List.getElem?_eq_getElem hp)
    exact List.mem_map.2 ⟨(p, V[p]), List.mem_filter.2 ⟨hx, by simp [hgate, hl]⟩, rfl⟩

/-- **The join-table entries of a union**, at the end of the pass, against
the merged view `V` of its members' fields.  Their positions rise strictly.
Each is the `joinEntry` of a one-level list field of `V` at its position in
`V`.  A one-level list field of `V` gets exactly one entry when its base type
is the union itself or an entity object or union declared before it, is not
a built-in scalar, and is not virtual on the returned model. -/
theorem unionJoinTableMeta_spec (h : ParsedGraphQLSchema.new scalarNames (some doc) = .ok m)
    (hnd : (declaredNames doc.definitions).Nodup) {pre post : List TypeSystemDefinition}
    {t : TypeDefinition} {u : UnionType} (hsplit : doc.definitions = pre ++ .type t :: post)
    (hk : t.kind = .union u) {os : List ObjectType}
    (hos : List.Forall₂ (fun M o => ∃ t' ∈ doc.typeDefinitions, t'.name = M ∧
      t'.entityObject? = some o) u.members os) :
    (∃ is : List ℕ, is.Pairwise (· < ·) ∧
      ((m.joinTableMeta t.name.val).getD []).map (fun e => e.parent.childPosition) =
        is.map some) ∧
    (∀ e ∈ (m.joinTableMeta t.name.val).getD [], ∃ p,
      ∃ hp : p < (mergedView (os.flatMap ObjectType.fields)).length,
      e = joinEntry t.name.val p (mergedView (os.flatMap ObjectType.fields))[p] ∧
      isListType (mergedView (os.flatMap ObjectType.fields))[p] = true) ∧
    (∀ p, ∀ hp : p < (mergedView (os.flatMap ObjectType.fields)).length,
      isListType (mergedView (os.flatMap ObjectType.fields))[p] = true →
      (fieldTypeName (mergedView (os.flatMap ObjectType.fields))[p] = t.name.val ∨
        ∃ t' ∈ declaredTypes pre,
          t'.name.val = fieldTypeName (mergedView (os.flatMap ObjectType.fields))[p] ∧
          t'.isParsedType) →
      fieldTypeName (mergedView (os.flatMap ObjectType.fields))[p] ∉ scalarNames →
      m.isVirtualTypedef (fieldTypeName (mergedView (os.flatMap ObjectType.fields))[p]) = false →
      joinEntry t.name.val p (mergedView (os.flatMap ObjectType.fields))[p] ∈
        (m.joinTableMeta t.name.val).getD [] ∧
      ((m.joinTableMeta t.name.val).getD []).countP
        (fun e => e.parent.childPosition = some p) = 1) := by
  obtain ⟨S, hS, hE, hcomp⟩ := unionJoinTableMeta_eq h hnd hsplit hk hos
  obtain ⟨hpos, hsound, hcount⟩ := joinEntries_of_sublist (P := t.name.val) hS
  rw [← hE] at hpos hsound hcount
  refine ⟨hpos, hsound, fun p hp hl hN hsc hv => ?_⟩
  have hmem := hcomp p hp hl hN hsc hv
  exact ⟨hmem, hcount _ _ hmem⟩

/-- The parser test's check on `Storage = Safe | Vault`: the merged view is
`id`, `account`, `label`, `user`, and the entries are
`JoinTableMeta::new("storage", "id", "account", "id", Some(1))` and
`JoinTableMeta::new("storage", "id", "user", "id", Some(3))`. -/
theorem storage_joinTableMeta :
    ∃ m, ParsedGraphQLSchema.new ParserTest.scalarNames (some ParserTest.schema) = .ok m ∧
      JoinTableMeta.new "storage" "id" "account" "id" (some 1) ∈
        (m.joinTableMeta "Storage").getD [] ∧
      JoinTableMeta.new "storage" "id" "user" "id" (some 3) ∈
        (m.joinTableMeta "Storage").getD [] := by
  obtain ⟨m, hm, -, hvA, hvU⟩ := ParserTest.new_schema
  have hsplit : ParserTest.schema.definitions = ParserTest.schema.definitions.take 9 ++
      .type ParserTest.storage :: ParserTest.schema.definitions.drop 10 := rfl
  have hos : List.Forall₂ (fun M o => ∃ t' ∈ ParserTest.schema.typeDefinitions, t'.name = M ∧
      t'.entityObject? = some o) [.ofLit "Safe", .ofLit "Vault"]
      [⟨[ParserTest.field "id" "ID", ParserTest.listField "account" "Account"]⟩,
        ⟨[ParserTest.field "id" "ID", ParserTest.field "label" "Charfield",
          ParserTest.listField "user" "User"]⟩] :=
    .cons ⟨ParserTest.safe, by decide, rfl, rfl⟩
      (.cons ⟨ParserTest.vault, by decide, rfl, rfl⟩ .nil)
  have hspec := unionJoinTableMeta_spec hm (by decide) hsplit rfl hos
  exact ⟨m, hm,
    (hspec.2.2 1 (by decide) (by decide) (.inr (by decide)) (by decide) hvA).1,
    (hspec.2.2 3 (by decide) (by decide) (.inr (by decide)) (by decide) hvU).1⟩

end GraphQL
end FuelIndexer
