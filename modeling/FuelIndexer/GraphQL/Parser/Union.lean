import FuelIndexer.GraphQL.Parser.Basic

/-!
# The union arm

`TypeKind::Union` in the definition loop of `ParsedGraphQLSchema::new`.  A
union has no fields of its own, and the arm builds its view from its members'
fields in two loops.

The first loop is the join-table deriver.  For each member in order it drops
the member's own `join_table_meta` entry, looks the member up among the parsed
objects (a panic when it is missing), and walks its fields.  A field whose
name was already seen under this union is skipped; every other field takes
the next `child_position`, one counter for the whole union, and goes through
the same foreign-key block as an object's field, with the union as parent.

`UnionPass.after` is what the first loop has built after some members and
their fields, and `unionMembers_after` says that the loop builds exactly that:
under the union, the entries `joinEntries` of the members' `mergedView`, and
nothing of the members' own entries.

The second loop registers every member field again under the union's name,
in `field_defs`, `field_type_mappings`, `object_field_mappings` and
`field_type_optionality`.  It has no `processed_fields`: a name that occurs in
two members is written twice, and the later member's field stays.

Before both loops the arm calls the validator
`check_derived_union_is_well_formed`, which is not under src/ and is modelled
from the spec.
-/

namespace FuelIndexer
namespace GraphQL

/-- Modelled from the spec: `GraphQLSchemaValidator::check_derived_union_is_well_formed`
(`graphql/validator.rs` is not under src/).  "Propagate any inconsistency in
members' virtual flags as an error": the members must be all virtual or all
not.  `new` drops what the call returns, so the check stops the run only by a
panic.  The call also receives `&mut virtual_type_names`; the spec is silent on
whether the validator writes to it, and the model leaves the set as it is, so
it never marks the union itself virtual. -/
def checkDerivedUnionIsWellFormed (t : TypeDefinition) (virtualTypeNames : Finset String) :
    Except Failure (Finset String) :=
  match t.kind with
  | .union u =>
    if u.members.any (fun m => m.val ∈ virtualTypeNames) &&
        u.members.any (fun m => m.val ∉ virtualTypeNames) then
      .error (.panic ("Inconsistent use of virtual union types. " ++ t.name.val))
    else pure virtualTypeNames
  | _ => pure virtualTypeNames

theorem checkDerivedUnionIsWellFormed_eq_ok {t : TypeDefinition} {v v' : Finset String}
    (h : checkDerivedUnionIsWellFormed t v = .ok v') : v' = v := by
  unfold checkDerivedUnionIsWellFormed at h
  split at h
  · split at h
    · cases h
    · exact (Except.ok.inj h).symm
  · exact (Except.ok.inj h).symm

/-- The locals of the union arm's first loop: the caches, `processed_fields`
and `child_position`. -/
structure UnionPass where
  caches : Indices
  processedFields : Finset String
  childPosition : Nat

/-! ## The merged view and its entries -/

/-- The union's merged view: its members' fields in declared order, with every
field dropped whose name occurs earlier in the sequence. -/
def mergedView (fs : List FieldDefinition) : List FieldDefinition :=
  (fs.enum.filter fun e => (fs.take e.1).all fun g => g.name ≠ e.2.name).map Prod.snd

/-- The entries the first loop pushes under a union with merged view `V`, for
the foreign-key test `test` on base types: one for each list field of `V`
that passes, at its position in `V`. -/
def joinEntries (parentName : String) (test : String → Bool) (V : List FieldDefinition) :
    List JoinTableMeta :=
  (V.enum.filter fun e => test (fieldTypeName e.2) && isListType e.2).map fun e =>
    joinEntry parentName e.1 e.2

theorem mergedView_append_singleton (fs : List FieldDefinition) (f : FieldDefinition) :
    mergedView (fs ++ [f]) =
      mergedView fs ++ if fs.all (fun g => g.name ≠ f.name) then [f] else [] := by
  unfold mergedView
  rw [List.enum_append, List.enumFrom_singleton, List.filter_append, List.map_append]
  congr 1
  · congr 1
    apply List.filter_congr
    intro e he
    rw [List.take_append_of_le_length (Nat.le_of_lt (List.fst_lt_of_mem_enum he))]
  · rw [List.filter_cons, List.take_left]
    split <;> simp_all

theorem joinEntries_append_singleton (parentName : String) (test : String → Bool)
    (V : List FieldDefinition) (f : FieldDefinition) :
    joinEntries parentName test (V ++ [f]) = joinEntries parentName test V ++
      if test (fieldTypeName f) && isListType f then [joinEntry parentName V.length f]
      else [] := by
  unfold joinEntries
  rw [List.enum_append, List.enumFrom_singleton, List.filter_append, List.map_append,
    List.filter_cons]
  split <;> simp_all

/-- A map with the keys `ks` removed. -/
def dropKeys {α : Type} (m : String → Option α) (ks : List String) : String → Option α :=
  fun j => if j ∈ ks then none else m j

namespace Indices

variable (scalarNames : Finset String)

/-- The foreign-key test and block for one member field, under the union. -/
def unionFieldKey (unionName : String) (c : Indices) (position : Nat) (f : FieldDefinition) :
    Except Failure Indices :=
  if c.isPossibleForeignKey scalarNames (fieldTypeName f) then
    Prod.fst <$> c.joinForeignKey unionName position f
  else pure c

/-- One field of a member in the first loop of the union arm. -/
def unionField (unionName : String) (p : UnionPass) (f : FieldDefinition) :
    Except Failure UnionPass :=
  let fid := fieldId unionName f.name.val
  if fid ∈ p.processedFields then pure p
  else (fun s => ⟨s, insert fid p.processedFields, p.childPosition + 1⟩) <$>
    unionFieldKey scalarNames unionName p.caches p.childPosition f

/-- The fields of one member, in the first loop. -/
def unionFields (unionName : String) : List FieldDefinition → UnionPass → Except Failure UnionPass
  | [], p => pure p
  | f :: fs, p => do unionFields unionName fs (← unionField scalarNames unionName p f)

/-- One member in the first loop: the no-op re-insert into
`virtual_type_names`, the removal of the member's own join-table entry, and
the member's fields. -/
def unionMember (unionName : String) (p : UnionPass) (m : Name) : Except Failure UnionPass :=
  let s := p.caches
  let s := if m.val ∈ s.virtualTypeNames then
      { s with virtualTypeNames := insert m.val s.virtualTypeNames } else s
  let s := if (s.joinTableMeta m.val).isSome then
      { s with joinTableMeta := Function.update s.joinTableMeta m.val none } else s
  match s.objects m.val with
  | none => .error (.panic "Union member not found in parsed TypeDefinitions.")
  | some o => unionFields scalarNames unionName o.fields { p with caches := s }

/-- The first loop of the union arm. -/
def unionMembers (unionName : String) : List Name → UnionPass → Except Failure UnionPass
  | [], p => pure p
  | m :: ms, p => do unionMembers unionName ms (← unionMember scalarNames unionName p m)

/-- One member field in the second loop, registered under the union's name
with the member as its owner. -/
def unionFieldCopy (unionName memberName : String) (s : Indices) (f : FieldDefinition) :
    Indices :=
  { s.registerField (fieldId unionName f.name.val) f memberName with
    objectFieldMappings := insertNested s.objectFieldMappings unionName f.name.val
      (fieldTypeName f) }

/-- One member in the second loop. -/
def unionMemberCopy (unionName : String) (s : Indices) (m : Name) : Except Failure Indices :=
  match s.objects m.val with
  | none => .error (.panic "called `Option::unwrap()` on a `None` value")
  | some o => pure (o.fields.foldl (unionFieldCopy unionName m.val) s)

/-- The second loop of the union arm. -/
def unionMemberCopies (unionName : String) : List Name → Indices → Except Failure Indices
  | [], s => pure s
  | m :: ms, s => do unionMemberCopies unionName ms (← unionMemberCopy unionName s m)

/-! ## The first loop -/

/-- What the first loop of the union arm `U` has built from caches `c`, once it
has dropped the entries of the members `ms` and walked their fields `sf`. -/
def UnionPass.after (U : String) (c : Indices) (ms : List String) (sf : List FieldDefinition) :
    UnionPass where
  caches := { c with
    joinTableMeta := pushEntries (dropKeys c.joinTableMeta ms) U
      (joinEntries U (c.isPossibleForeignKey scalarNames) (mergedView sf)) }
  processedFields := (sf.map fun g => fieldId U g.name.val).toFinset
  childPosition := (mergedView sf).length

@[simp] theorem UnionPass.after_processedFields (U : String) (c : Indices) (ms : List String)
    (sf : List FieldDefinition) :
    (UnionPass.after scalarNames U c ms sf).processedFields =
      (sf.map fun g => fieldId U g.name.val).toFinset := rfl

@[simp] theorem UnionPass.after_childPosition (U : String) (c : Indices) (ms : List String)
    (sf : List FieldDefinition) :
    (UnionPass.after scalarNames U c ms sf).childPosition = (mergedView sf).length := rfl

theorem toFinset_append_singleton {α : Type} [DecidableEq α] (l : List α) (a : α) :
    (l ++ [a]).toFinset = insert a l.toFinset := by
  ext; simp [or_comm]

theorem mem_processedFields {U : String} {sf : List FieldDefinition} {f : FieldDefinition} :
    fieldId U f.name.val ∈ (sf.map fun g => fieldId U g.name.val).toFinset ↔
      ¬ sf.all (fun g => g.name ≠ f.name) := by
  simp only [List.mem_toFinset, List.mem_map, fieldId_left_inj, List.all_eq_true,
    decide_eq_true_eq, not_forall, not_not, exists_prop, Name.ext_iff]

theorem unionFieldKey_eq_ok {U : String} {c c' : Indices} {position : Nat}
    {f : FieldDefinition} (h : unionFieldKey scalarNames U c position f = .ok c') :
    c' = { c with
      joinTableMeta := pushEntries c.joinTableMeta U
        (if c.isPossibleForeignKey scalarNames (fieldTypeName f) && isListType f then
          [joinEntry U position f] else []) } := by
  unfold unionFieldKey at h
  split at h
  · obtain ⟨r, hr, rfl⟩ := Except.map_eq_ok.1 h
    simp [joinForeignKey_eq_ok hr, *]
  · cases h
    simp [*]

/-- **One field of the first loop** extends the merged view by the field when
its name is new, and leaves everything as it was otherwise. -/
theorem unionField_after {U : String} {c : Indices} {ms : List String}
    {sf : List FieldDefinition} {f : FieldDefinition} {p' : UnionPass}
    (h : unionField scalarNames U (UnionPass.after scalarNames U c ms sf) f = .ok p') :
    p' = UnionPass.after scalarNames U c ms (sf ++ [f]) := by
  dsimp only [unionField] at h
  simp only [UnionPass.after_processedFields, UnionPass.after_childPosition] at h
  by_cases hseen : sf.all (fun g => g.name ≠ f.name) = true
  · rw [if_neg (mem_processedFields.not.2 (not_not.2 hseen))] at h
    obtain ⟨c', hc', rfl⟩ := Except.map_eq_ok.1 h
    rw [unionFieldKey_eq_ok scalarNames hc']
    simp only [UnionPass.after, mergedView_append_singleton, if_pos hseen,
      joinEntries_append_singleton, pushEntries_append, List.map_append, List.map_cons,
      List.map_nil, toFinset_append_singleton, List.length_append, List.length_singleton,
      Indices.isPossibleForeignKey_joinTableMeta]
  · rw [if_pos (mem_processedFields.2 hseen)] at h
    cases h
    simp only [UnionPass.after, mergedView_append_singleton, if_neg hseen, List.append_nil,
      List.map_append, toFinset_append_singleton, List.map_cons, List.map_nil,
      Finset.insert_eq_of_mem (mem_processedFields.2 hseen)]

theorem unionFields_after {U : String} {c : Indices} {ms : List String} :
    ∀ {fs sf : List FieldDefinition} {p' : UnionPass},
      unionFields scalarNames U fs (UnionPass.after scalarNames U c ms sf) = .ok p' →
        p' = UnionPass.after scalarNames U c ms (sf ++ fs)
  | [], sf, p', h => by cases h; simp
  | f :: fs, sf, p', h => by
    obtain ⟨p₁, h₁, h⟩ := Except.bind_eq_ok.1 h
    rw [unionField_after scalarNames h₁] at h
    simpa using unionFields_after h

@[simp] theorem dropKeys_nil {α : Type} (m : String → Option α) : dropKeys m [] = m := by
  funext j
  simp [dropKeys]

theorem dropKeys_append_singleton {α : Type} (m : String → Option α) (ms : List String)
    (k : String) : dropKeys m (ms ++ [k]) = Function.update (dropKeys m ms) k none := by
  funext j
  by_cases hj : j = k
  · subst hj; simp [dropKeys]
  · simp [dropKeys, Function.update_noteq hj, hj]

theorem unionMember_eq (U : String) (p : UnionPass) (m : Name) :
    unionMember scalarNames U p m =
      match p.caches.objects m.val with
      | none => .error (.panic "Union member not found in parsed TypeDefinitions.")
      | some o => unionFields scalarNames U o.fields
          { p with caches := { p.caches with
            joinTableMeta := Function.update p.caches.joinTableMeta m.val none } } := by
  have hv : (if m.val ∈ p.caches.virtualTypeNames then
      { p.caches with virtualTypeNames := insert m.val p.caches.virtualTypeNames }
      else p.caches) = p.caches := by
    split_ifs with hm
    · rw [Finset.insert_eq_of_mem hm]
    · rfl
  have hj : ∀ c : Indices, (if (c.joinTableMeta m.val).isSome then
      { c with joinTableMeta := Function.update c.joinTableMeta m.val none } else c) =
      { c with joinTableMeta := Function.update c.joinTableMeta m.val none } := by
    intro c
    split_ifs with hm
    · rfl
    · rw [Option.not_isSome_iff_eq_none] at hm
      rw [← hm, Function.update_eq_self]
  simp only [unionMember, hv, hj]

/-- **One member of the first loop**: the member must be a parsed object, its
own entries are dropped, and its fields join the merged view. -/
theorem unionMember_after {U : String} {c : Indices} {ms : List String}
    {sf : List FieldDefinition} {m : Name} {p' : UnionPass} (hU : c.objects U = none)
    (h : unionMember scalarNames U (UnionPass.after scalarNames U c ms sf) m = .ok p') :
    ∃ o, c.objects m.val = some o ∧
      p' = UnionPass.after scalarNames U c (ms ++ [m.val]) (sf ++ o.fields) := by
  rw [unionMember_eq] at h
  cases ho : c.objects m.val with
  | none =>
    rw [show (UnionPass.after scalarNames U c ms sf).caches.objects m.val = none from ho] at h
    cases h
  | some o =>
    rw [show (UnionPass.after scalarNames U c ms sf).caches.objects m.val = some o from ho] at h
    have hmU : m.val ≠ U := fun he => by rw [he, hU] at ho; cases ho
    refine ⟨o, rfl, unionFields_after scalarNames ?_⟩
    rw [← h]
    simp only [UnionPass.after, dropKeys_append_singleton, pushEntries_update_of_ne _ _ _ hmU]

/-- **The first loop**: every member is a parsed object, and the loop builds
`UnionPass.after` for all the members and the concatenation of their fields. -/
theorem unionMembers_after {U : String} {c : Indices} (hU : c.objects U = none) :
    ∀ {ms : List Name} {ms₀ : List String} {sf : List FieldDefinition} {p' : UnionPass},
      unionMembers scalarNames U ms (UnionPass.after scalarNames U c ms₀ sf) = .ok p' →
        ∃ os : List ObjectType, List.Forall₂ (fun m o => c.objects m.val = some o) ms os ∧
          p' = UnionPass.after scalarNames U c (ms₀ ++ ms.map Name.val)
            (sf ++ os.flatMap ObjectType.fields)
  | [], ms₀, sf, p', h => ⟨[], .nil, by cases h; simp⟩
  | m :: ms, ms₀, sf, p', h => by
    obtain ⟨p₁, h₁, h⟩ := Except.bind_eq_ok.1 h
    obtain ⟨o, ho, rfl⟩ := unionMember_after scalarNames hU h₁
    obtain ⟨os, hos, rfl⟩ := unionMembers_after hU h
    exact ⟨o :: os, .cons ho hos, by simp⟩

/-! ## The second loop -/

/-- The member fields the second loop registers, in order, each with the name
of its member. -/
def memberFieldPairs (ms : List Name) (os : List ObjectType) : List (String × FieldDefinition) :=
  (ms.zip os).flatMap fun mo => mo.2.fields.map fun f => (mo.1.val, f)

/-- The second loop on a list of member fields. -/
def copyFields (U : String) (ps : List (String × FieldDefinition)) (s : Indices) : Indices :=
  ps.foldl (fun s p => unionFieldCopy U p.1 s p.2) s

@[simp] theorem copyFields_cons (U : String) (p : String × FieldDefinition)
    (ps : List (String × FieldDefinition)) (s : Indices) :
    copyFields U (p :: ps) s = copyFields U ps (unionFieldCopy U p.1 s p.2) := rfl

/-- The second loop writes only the four field maps. -/
theorem copyFields_eq (U : String) :
    ∀ (ps : List (String × FieldDefinition)) (s : Indices), copyFields U ps s =
      { s with
        fieldDefs := (copyFields U ps s).fieldDefs
        fieldTypeMappings := (copyFields U ps s).fieldTypeMappings
        fieldTypeOptionality := (copyFields U ps s).fieldTypeOptionality
        objectFieldMappings := (copyFields U ps s).objectFieldMappings }
  | [], _ => rfl
  | p :: ps, s => by
    show copyFields U ps (unionFieldCopy U p.1 s p.2) = _
    rw [copyFields_eq U ps]
    rfl

theorem copyFields_objects (U : String) (ps : List (String × FieldDefinition)) (s : Indices) :
    (copyFields U ps s).objects = s.objects := by
  rw [copyFields_eq]

theorem memberFieldPairs_map_snd : ∀ {ms : List Name} {os : List ObjectType},
    ms.length = os.length → (memberFieldPairs ms os).map Prod.snd = os.flatMap ObjectType.fields
  | [], [], _ => rfl
  | m :: ms, o :: os, h => by
    have := memberFieldPairs_map_snd (by simpa using h : ms.length = os.length)
    simp only [memberFieldPairs, List.zip_cons_cons, List.flatMap_cons, List.map_append,
      List.map_map] at this ⊢
    rw [this]
    simp [Function.comp_def]

/-- The second loop writes `object_field_mappings` only under the union, -/
theorem copyFields_objectFieldMappings_of_ne (U : String) {k : String} (hk : k ≠ U) :
    ∀ (ps : List (String × FieldDefinition)) (s : Indices),
      (copyFields U ps s).objectFieldMappings k = s.objectFieldMappings k
  | [], _ => rfl
  | p :: ps, s => by
    simp only [copyFields_cons, copyFields_objectFieldMappings_of_ne U hk ps, unionFieldCopy,
      insertNested_apply, if_neg hk]

/-- and the three field maps only at the union's field ids. -/
theorem copyFields_fieldMaps_of_ne (U : String) {j : String} (hj : ∀ n, j ≠ fieldId U n) :
    ∀ (ps : List (String × FieldDefinition)) (s : Indices),
      (copyFields U ps s).fieldDefs j = s.fieldDefs j ∧
        (copyFields U ps s).fieldTypeMappings j = s.fieldTypeMappings j ∧
        (copyFields U ps s).fieldTypeOptionality j = s.fieldTypeOptionality j
  | [], _ => ⟨rfl, rfl, rfl⟩
  | p :: ps, s => by
    simp only [copyFields_cons, copyFields_fieldMaps_of_ne U hj ps, unionFieldCopy,
      Indices.registerField, Function.update_noteq (hj _), and_self]

/-- **The second loop writes the last member field of each name** under the
union's field ids, in all four maps; with no such field the maps keep what
they held. -/
theorem copyFields_at (U : String) :
    ∀ (ps : List (String × FieldDefinition)) (s : Indices), WritesLast U ps s (copyFields U ps s)
  | [], _, _ => by simp [lastFieldNamed, copyFields]
  | p :: ps, s, n => by
    obtain ⟨h₁, h₂, h₃, h₄⟩ := copyFields_at U ps (unionFieldCopy U p.1 s p.2) n
    rw [copyFields_cons, h₁, h₂, h₃, h₄, lastFieldNamed_cons]
    by_cases hn : p.2.name.val = n
    · subst hn
      cases lastFieldNamed ps p.2.name.val <;>
        simp [unionFieldCopy, Indices.registerField, bind_insertNested]
    · have hid : fieldId U n ≠ fieldId U p.2.name.val := fun h => hn (fieldId_left_inj.1 h).symm
      cases lastFieldNamed ps n <;>
        simp [unionFieldCopy, Indices.registerField, bind_insertNested, hn, Ne.symm hn,
          Function.update_noteq hid]

theorem unionMemberCopies_eq_ok {U : String} : ∀ {ms : List Name} {s s' : Indices},
    unionMemberCopies U ms s = .ok s' →
      ∃ os : List ObjectType, List.Forall₂ (fun m o => s.objects m.val = some o) ms os ∧
        s' = copyFields U (memberFieldPairs ms os) s
  | [], s, s', h => ⟨[], .nil, by cases h; rfl⟩
  | m :: ms, s, s', h => by
    obtain ⟨s₁, h₁, h⟩ := Except.bind_eq_ok.1 h
    unfold unionMemberCopy at h₁
    split at h₁
    · cases h₁
    · rename_i o ho
      cases h₁
      have hs₁ : o.fields.foldl (unionFieldCopy U m.val) s =
          copyFields U (o.fields.map fun f => (m.val, f)) s := by
        simp [copyFields, List.foldl_map]
      rw [hs₁] at h
      obtain ⟨os, hos, rfl⟩ := unionMemberCopies_eq_ok h
      rw [copyFields_objects] at hos
      refine ⟨o :: os, .cons ho hos, ?_⟩
      simp [memberFieldPairs, copyFields, List.foldl_append]

/-- What the union arm records before its loops. -/
def registerUnion (t : TypeDefinition) (s : Indices) : Indices :=
  { s with
    parsedTypedefNames := insert t.name.val s.parsedTypedefNames
    typeDefs := insertEntry s.typeDefs t.name.val t
    unionNames := insert t.name.val s.unionNames }

/-- The union arm, for a union `t` with body `u`. -/
def unionArm (t : TypeDefinition) (u : UnionType) (s : Indices) : Except Failure Indices := do
  let s := registerUnion t s
  let v ← checkDerivedUnionIsWellFormed t s.virtualTypeNames
  let p ← unionMembers scalarNames t.name.val u.members ⟨{ s with virtualTypeNames := v }, ∅, 0⟩
  unionMemberCopies t.name.val u.members p.caches

theorem forall₂_unique {α β : Type} {R S : α → β → Prop}
    (hRS : ∀ a b c, R a b → S a c → b = c) :
    ∀ {l : List α} {l₁ l₂ : List β}, List.Forall₂ R l l₁ → List.Forall₂ S l l₂ → l₁ = l₂
  | [], _, _, .nil, .nil => rfl
  | _ :: _, _, _, .cons h₁ t₁, .cons h₂ t₂ => by
    obtain rfl := hRS _ _ _ h₁ h₂
    obtain rfl := forall₂_unique hRS t₁ t₂
    rfl

theorem forall₂_eq_some_isSome {α β : Type} {f : α → Option β} :
    ∀ {l : List α} {l' : List β}, List.Forall₂ (fun a b => f a = some b) l l' →
      ∀ a ∈ l, (f a).isSome
  | _, _, .nil, _, ha => absurd ha (List.not_mem_nil _)
  | _, _, .cons h t, a, ha => by
    rcases List.mem_cons.1 ha with rfl | ha
    · simp [h]
    · exact forall₂_eq_some_isSome t a ha

/-- The pass the first loop starts from, once the validator has returned the
virtual names unchanged. -/
theorem unionArm_start (t : TypeDefinition) (s : Indices) :
    (⟨{ registerUnion t s with virtualTypeNames := (registerUnion t s).virtualTypeNames }, ∅, 0⟩ :
      UnionPass) = UnionPass.after scalarNames t.name.val (registerUnion t s) [] [] := by
  simp only [UnionPass.after, dropKeys_nil]
  rfl

/-- **The union arm, when it returns.**  Every member is a parsed object; the
first loop leaves `UnionPass.after` for all of them, and the second loop copies
their fields under the union. -/
theorem unionArm_eq_ok {t : TypeDefinition} {u : UnionType} {s s' : Indices}
    (hU : s.objects t.name.val = none) (h : unionArm scalarNames t u s = .ok s') :
    ∃ os : List ObjectType, List.Forall₂ (fun m o => s.objects m.val = some o) u.members os ∧
      s' = copyFields t.name.val (memberFieldPairs u.members os)
        (UnionPass.after scalarNames t.name.val (registerUnion t s) (u.members.map Name.val)
          (os.flatMap ObjectType.fields)).caches := by
  obtain ⟨v, hv, h⟩ := Except.bind_eq_ok.1 h
  rw [checkDerivedUnionIsWellFormed_eq_ok hv] at h
  obtain ⟨p, hp, h⟩ := Except.bind_eq_ok.1 h
  rw [unionArm_start] at hp
  obtain ⟨os, hos, rfl⟩ := unionMembers_after scalarNames (c := registerUnion t s) hU hp
  obtain ⟨os', hos', rfl⟩ := unionMemberCopies_eq_ok h
  rw [forall₂_unique (fun _ _ _ h₁ h₂ => Option.some.inj (h₁.symm.trans h₂)) hos' hos]
  exact ⟨os, hos, rfl⟩

/-- **The union arm writes the last member field of each name** under the
union's field ids. -/
theorem unionArm_writesLast {t : TypeDefinition} {u : UnionType} {s s' : Indices}
    (hU : s.objects t.name.val = none) (h : unionArm scalarNames t u s = .ok s') :
    ∃ os : List ObjectType, List.Forall₂ (fun m o => s.objects m.val = some o) u.members os ∧
      WritesLast t.name.val (memberFieldPairs u.members os) s s' := by
  obtain ⟨os, hos, rfl⟩ := unionArm_eq_ok scalarNames hU h
  exact ⟨os, hos, copyFields_at _ _ _⟩

/-! ## The union arm on any caches

Without the union's name fresh, the first loop is still described well enough
for the caches other than `join_table_meta`: it writes none of them. -/

theorem unionField_caches {U : String} {p p' : UnionPass} {f : FieldDefinition}
    (h : unionField scalarNames U p f = .ok p') :
    p'.caches = { p.caches with joinTableMeta := p'.caches.joinTableMeta } := by
  dsimp only [unionField] at h
  split at h
  · cases h; rfl
  · obtain ⟨c', hc', rfl⟩ := Except.map_eq_ok.1 h
    rw [unionFieldKey_eq_ok scalarNames hc']

theorem unionFields_caches {U : String} : ∀ {fs : List FieldDefinition} {p p' : UnionPass},
    unionFields scalarNames U fs p = .ok p' →
      p'.caches = { p.caches with joinTableMeta := p'.caches.joinTableMeta }
  | [], _, _, h => by cases h; rfl
  | _ :: _, _, _, h => by
    obtain ⟨_, h₁, h⟩ := Except.bind_eq_ok.1 h
    rw [unionFields_caches h, unionField_caches scalarNames h₁]

/-- The first loop writes no cache but `join_table_meta`. -/
theorem unionMembers_caches {U : String} : ∀ {ms : List Name} {p p' : UnionPass},
    unionMembers scalarNames U ms p = .ok p' →
      p'.caches = { p.caches with joinTableMeta := p'.caches.joinTableMeta }
  | [], _, _, h => by cases h; rfl
  | _ :: _, _, _, h => by
    obtain ⟨_, h₁, h⟩ := Except.bind_eq_ok.1 h
    rw [unionMember_eq] at h₁
    split at h₁
    · cases h₁
    · rw [unionMembers_caches h, unionFields_caches scalarNames h₁]

/-- **The union arm, when it returns, on any caches**: every member is an
object, the first loop changes only `join_table_meta`, and the second loop
copies the members' fields. -/
theorem unionArm_eq_copyFields {t : TypeDefinition} {u : UnionType} {s s' : Indices}
    (h : unionArm scalarNames t u s = .ok s') :
    ∃ (c : Indices) (os : List ObjectType),
      c = { registerUnion t s with joinTableMeta := c.joinTableMeta } ∧
      List.Forall₂ (fun m o => s.objects m.val = some o) u.members os ∧
      s' = copyFields t.name.val (memberFieldPairs u.members os) c := by
  obtain ⟨v, hv, h⟩ := Except.bind_eq_ok.1 h
  rw [checkDerivedUnionIsWellFormed_eq_ok hv] at h
  obtain ⟨p, hp, h⟩ := Except.bind_eq_ok.1 h
  obtain ⟨os, hos, rfl⟩ := unionMemberCopies_eq_ok h
  have hc := unionMembers_caches scalarNames hp
  rw [hc] at hos
  exact ⟨p.caches, os, hc, hos, rfl⟩

end Indices

end GraphQL
end FuelIndexer
