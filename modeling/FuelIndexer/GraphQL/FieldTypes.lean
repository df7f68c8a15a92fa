import FuelIndexer.GraphQL.Syntax

/-!
# Field ids, type strings and foreign-key info

The free functions of `graphql/mod.rs` and `lib.rs` that the builder calls for
every field.  They all work on text: `field_id` joins two names with a `.`, and
the three type helpers read the rendered type `f.ty.to_string()`.

* `fieldTypeName` strips `[`, `]` and `!`, which leaves the base name
  (`fieldTypeName_eq_baseName`);
* `isListType` counts brackets, and two brackets is one list wrapper
  (`isListType_eq_true_iff`);
* `fieldId` is injective on names (`fieldId_inj`), since a name has no `.`,
  and `fullyQualifiedNamespace` on namespaces without `_`
  (`fullyQualifiedNamespace_inj`);
* `joinTableTypedefsName` splits a join table's name back into the two names
  `joinTableName` joined, when neither holds a `_`.

The type laws are proved over `RawTy`, every nesting of wrappers around any
base name without `[`, `]` and `!`, and read back onto field types.

`extractForeignKeyInfo` is where the builder can panic on a well-parsed schema:
an `@join` without arguments, or one naming a column that is not yet in
`field_type_mappings`.  A run's outcome is therefore `Except Failure`, with the
errors `new` returns and the panics it does not.
-/

namespace FuelIndexer
namespace GraphQL

/-! ## How a run ends -/

/-- `ParsedError`.  The parser's own diagnostic is kept as its text. -/
inductive ParsedError where
  | generic
  | parseError (msg : String)
  | unsupportedTypeKind
  | listTypesUnsupported
  | inconsistentVirtualUnion (name : String)
  | unionMemberNotFound (name : String)
  deriving DecidableEq

/-- How a call stops early: an `Err` it returns, or a panic with its message. -/
inductive Failure where
  | error (e : ParsedError)
  | panic (msg : String)
  deriving DecidableEq

/-! ## Text -/

/-- `s.replace(cs, "")` for a pattern that is an array of characters. -/
def stripChars (cs : List Char) (s : String) : String :=
  ⟨s.data.filter fun c => c ∉ cs⟩

/-- `str::to_lowercase`, on the ASCII names the parser produces. -/
def toLowercase (s : String) : String :=
  ⟨s.data.map Char.toLower⟩

/-- `field_id`: the fully qualified name `{typdef_name}.{field_name}`. -/
def fieldId (typdefName fieldName : String) : String :=
  typdefName ++ "." ++ fieldName

/-- `join_table_name`: `{a}s_{b}s`. -/
def joinTableName (a b : String) : String :=
  a ++ "s_" ++ b ++ "s"

/-- `fully_qualified_namespace`: `{namespace}_{identifier}`, the name of an
indexer's database schema. -/
def fullyQualifiedNamespace (ns identifier : String) : String :=
  ns ++ "_" ++ identifier

/-- `&s[0..s.len() - 1]`: the text without its last byte.  The subtraction
overflows on the empty text, and the slice panics unless the last character is
one byte, since its end is no character boundary otherwise. -/
def dropLastByte (s : String) : Except Failure String :=
  match s.data.getLast? with
  | none => .error (.panic "attempt to subtract with overflow")
  | some c =>
    if c.utf8Size = 1 then .ok ⟨s.data.dropLast⟩
    else .error (.panic "byte index is not a char boundary")

/-- `join_table_typedefs_name`: the first two pieces of the name split at `_`,
each without its last byte, the plural `s`. -/
def joinTableTypedefsName (joinTableName : String) : Except Failure (String × String) :=
  match joinTableName.data.splitOn '_' with
  | a :: b :: _ => do
    let a ← dropLastByte ⟨a⟩
    let b ← dropLastByte ⟨b⟩
    pure (a, b)
  | _ => .error (.panic "called Option::unwrap() on a None value")

/-- `is_list_type`: the rendered type holds exactly two brackets. -/
def isListType (f : FieldDefinition) : Bool :=
  f.ty.toString.data.countP (fun c => c ∈ ['[', ']']) == 2

/-- `field_type_name`: the rendered type without `[`, `]` and `!`. -/
def fieldTypeName (f : FieldDefinition) : String :=
  stripChars ['[', ']', '!'] f.ty.toString

/-- `list_field_type_name`: the rendered type without `!`. -/
def listFieldTypeName (f : FieldDefinition) : String :=
  stripChars ['!'] f.ty.toString

/-- Modelled from the spec: `IdCol` (`graphql/types.rs` is not under src/).
The identifier column; the parser test fixes its lowercase form as `id`. -/
def IdCol.toLowercaseStr : String := "id"

/-! ## What the helpers compute -/

theorem underscore_of_toLower {c : Char} (h : c.toLower = '_') : c = '_' := by
  unfold Char.toLower at h
  dsimp only at h
  split at h
  · have hv : Nat.isValidChar (c.toNat + 32) := Or.inl (by omega)
    rw [Char.ofNat, dif_pos hv] at h
    have : c.toNat + 32 = 95 := congrArg Char.toNat h
    omega
  · exact h

/-- Lowercasing makes no `_`. -/
theorem underscore_not_mem_toLowercase {s : String} (h : '_' ∉ s.data) :
    '_' ∉ (toLowercase s).data := by
  simp only [toLowercase, List.mem_map, not_exists, not_and]
  exact fun c hc hlow => h (underscore_of_toLower hlow ▸ hc)

/-- Without `_` in either name, `join_table_typedefs_name` reads the two names
back off `join_table_name`: the split gives the two plurals, and the `s` each
ends in is one byte. -/
theorem joinTableTypedefsName_joinTableName {a b : String} (ha : '_' ∉ a.data)
    (hb : '_' ∉ b.data) : joinTableTypedefsName (joinTableName a b) = .ok (a, b) := by
  have hsplit : (joinTableName a b).data.splitOn '_' = [a.data ++ ['s'], b.data ++ ['s']] := by
    have : (joinTableName a b).data = ['_'].intercalate [a.data ++ ['s'], b.data ++ ['s']] := by
      simp [joinTableName, List.intercalate]
    rw [this, List.splitOn_intercalate]
    · simpa using ⟨ha, hb⟩
    · simp
  have hdrop : ∀ x : String, dropLastByte ⟨x.data ++ ['s']⟩ = .ok x := fun x => by
    simp only [dropLastByte, List.getLast?_concat, List.dropLast_concat]
    rfl
  rw [joinTableTypedefsName, hsplit]
  simp only [hdrop]
  rfl

/-- Two texts joined by a separator that the first parts do not hold are
equal only part by part. -/
theorem append_sep_inj {c : Char} {la lb lx ly : List Char} (ha : c ∉ la) (hb : c ∉ lb)
    (h : la ++ c :: lx = lb ++ c :: ly) : la = lb ∧ lx = ly := by
  induction la generalizing lb with
  | nil =>
    cases lb with
    | nil => simpa using h
    | cons d lb =>
      obtain ⟨rfl, -⟩ := List.cons.inj h
      exact absurd (List.mem_cons_self _ _) hb
  | cons d la ih =>
    cases lb with
    | nil =>
      obtain ⟨rfl, -⟩ := List.cons.inj h
      exact absurd (List.mem_cons_self _ _) ha
    | cons e lb =>
      simp only [List.cons_append, List.cons.injEq] at h
      obtain ⟨rfl, h⟩ := h
      obtain ⟨rfl, rfl⟩ := ih (fun h' => ha (List.mem_cons_of_mem _ h'))
        (fun h' => hb (List.mem_cons_of_mem _ h')) h
      exact ⟨rfl, rfl⟩

theorem fieldId_inj {a b x y : String} (ha : '.' ∉ a.data) (hb : '.' ∉ b.data) :
    fieldId a x = fieldId b y ↔ a = b ∧ x = y := by
  refine ⟨fun h => ?_, fun ⟨rfl, rfl⟩ => rfl⟩
  have hd : a.data ++ '.' :: x.data = b.data ++ '.' :: y.data := by
    simpa [fieldId, String.ext_iff] using h
  obtain ⟨h1, h2⟩ := append_sep_inj ha hb hd
  exact ⟨String.ext h1, String.ext h2⟩

theorem fieldId_left_inj {a x y : String} : fieldId a x = fieldId a y ↔ x = y := by
  simp [fieldId, String.ext_iff]

/-- **Two indexers share a schema name only when they share namespace and
identifier**, for namespaces without `_`: the first `_` of the name ends the
namespace. -/
theorem fullyQualifiedNamespace_inj {ns ns' identifier identifier' : String}
    (h : '_' ∉ ns.data) (h' : '_' ∉ ns'.data) :
    fullyQualifiedNamespace ns identifier = fullyQualifiedNamespace ns' identifier' ↔
      ns = ns' ∧ identifier = identifier' := by
  refine ⟨fun he => ?_, fun ⟨rfl, rfl⟩ => rfl⟩
  have hd : ns.data ++ '_' :: identifier.data = ns'.data ++ '_' :: identifier'.data := by
    simpa [fullyQualifiedNamespace, String.ext_iff] using he
  obtain ⟨h1, h2⟩ := append_sep_inj h h' hd
  exact ⟨String.ext h1, String.ext h2⟩

/-- The namespaces `myteam` and `my` give distinct schemas to their indexers
`explorer` and `team_explorer`. -/
theorem myteam_fullyQualifiedNamespace :
    '_' ∉ "myteam".data ∧ '_' ∉ "my".data ∧
      fullyQualifiedNamespace "myteam" "explorer" ≠
        fullyQualifiedNamespace "my" "team_explorer" :=
  ⟨by decide, by decide, fun he =>
    absurd ((fullyQualifiedNamespace_inj (by decide) (by decide)).1 he).1 (by decide)⟩

/-- With a `_` in the namespace the two indexers collide. -/
example : fullyQualifiedNamespace "my_team" "explorer" =
    fullyQualifiedNamespace "my" "team_explorer" := by decide

/-- Two field ids on names are equal exactly when both halves are. -/
theorem fieldId_name_inj {a b : Name} {x y : String} :
    fieldId a.val x = fieldId b.val y ↔ a = b ∧ x = y := by
  rw [fieldId_inj (a.not_mem (by decide)) (b.not_mem (by decide)), Name.ext_iff]

/-! ## The type helpers on any rendering

The three helpers only read the rendered type, so their laws hold of every
nesting of list and non-null wrappers around a base name free of `[`, `]` and
`!`, a `RawTy`.  The laws for field types follow through `Ty.toRaw`. -/

namespace RawTy

theorem filter_toString (t : RawTy) (hN : ∀ c ∈ ['[', ']', '!'], c ∉ t.baseName.data) :
    (t.toString.data.filter fun c => c ∉ ['[', ']', '!']) = t.baseName.data := by
  have hbang : ∀ b, ((Ty.bang b).data.filter fun c => c ∉ ['[', ']', '!']) = [] := by
    intro b; cases b <;> rfl
  induction t with
  | named n b =>
    have hn : (n.data.filter fun c => c ∉ ['[', ']', '!']) = n.data :=
      List.filter_eq_self.2 fun c hc => decide_eq_true fun h => hN c h hc
    simp only [toString, baseName, String.data_append, List.filter_append, hn, hbang,
      List.append_nil]
  | list t b ih =>
    have hl : (("[" : String).data.filter fun c => c ∉ ['[', ']', '!']) = [] := rfl
    have hr : (("]" : String).data.filter fun c => c ∉ ['[', ']', '!']) = [] := rfl
    simp only [toString, baseName, String.data_append, List.filter_append, ih hN, hbang, hl, hr,
      List.append_nil, List.nil_append]

theorem countP_brackets_toString (t : RawTy) (hN : ∀ c ∈ ['[', ']'], c ∉ t.baseName.data) :
    t.toString.data.countP (fun c => c ∈ ['[', ']']) = 2 * t.listDepth := by
  have hbang : ∀ b, (Ty.bang b).data.countP (fun c => c ∈ ['[', ']']) = 0 := by
    intro b; cases b <;> rfl
  induction t with
  | named n b =>
    have hn : n.data.countP (fun c => c ∈ ['[', ']']) = 0 :=
      List.countP_eq_zero.2 fun c hc h => hN c (of_decide_eq_true h) hc
    simp only [toString, listDepth, String.data_append, List.countP_append, hn, hbang]
  | list t b ih =>
    have hl : ("[" : String).data.countP (fun c => c ∈ ['[', ']']) = 1 := rfl
    have hr : ("]" : String).data.countP (fun c => c ∈ ['[', ']']) = 1 := rfl
    simp only [toString, listDepth, String.data_append, List.countP_append, ih hN, hbang,
      hl, hr]
    omega

/-- Dropping only the bangs leaves the brackets around the base name. -/
theorem filter_bang_toString (t : RawTy) (hN : '!' ∉ t.baseName.data) :
    (t.toString.data.filter fun c => c ∉ ['!']) =
      List.replicate t.listDepth '[' ++ t.baseName.data ++ List.replicate t.listDepth ']' := by
  have hbang : ∀ b, ((Ty.bang b).data.filter fun c => c ∉ ['!']) = [] := by
    intro b; cases b <;> rfl
  induction t with
  | named n b =>
    have hn : (n.data.filter fun c => c ∉ ['!']) = n.data :=
      List.filter_eq_self.2 fun c hc => decide_eq_true fun h => hN (List.mem_singleton.1 h ▸ hc)
    simp only [toString, baseName, listDepth, String.data_append, List.filter_append, hn, hbang,
      List.replicate_zero, List.nil_append, List.append_nil]
  | list t b ih =>
    have hl : (("[" : String).data.filter fun c => c ∉ ['!']) = ['['] := rfl
    have hr : (("]" : String).data.filter fun c => c ∉ ['!']) = [']'] := rfl
    simp only [toString, baseName, listDepth, String.data_append, List.filter_append, ih hN,
      hbang, hl, hr, List.append_nil]
    rw [List.replicate_succ, List.replicate_succ']
    simp

end RawTy

theorem Ty.baseName_not_mem (t : Ty) {c : Char} (hc : c ∈ ['[', ']', '!']) :
    c ∉ t.toRaw.baseName.data := by
  rw [baseName_toRaw]
  exact t.baseName.not_mem (by simp only [List.mem_cons, List.not_mem_nil] at hc; aesop)

theorem stripChars_toString (t : Ty) :
    (t.toString.data.filter fun c => c ∉ ['[', ']', '!']) = t.baseName.val.data := by
  simpa using t.toRaw.filter_toString fun _ => t.baseName_not_mem

/-- `field_type_name` is the base name. -/
theorem fieldTypeName_eq_baseName (f : FieldDefinition) :
    fieldTypeName f = f.ty.baseName.val :=
  String.ext (stripChars_toString f.ty)

theorem countP_brackets_toString (t : Ty) :
    t.toString.data.countP (fun c => c ∈ ['[', ']']) = 2 * t.listDepth := by
  simpa using t.toRaw.countP_brackets_toString fun _ hc =>
    t.baseName_not_mem (List.mem_append_left ['!'] hc)

/-- `list_field_type_name` is the base name in as many brackets as list wrappers. -/
theorem listFieldTypeName_eq (f : FieldDefinition) :
    listFieldTypeName f = ⟨List.replicate f.ty.listDepth '[' ++ f.ty.baseName.val.data ++
      List.replicate f.ty.listDepth ']'⟩ := by
  have h := f.ty.toRaw.filter_bang_toString (f.ty.baseName_not_mem (by simp))
  rw [Ty.toString_toRaw, Ty.listDepth_toRaw, Ty.baseName_toRaw] at h
  exact String.ext h

/-- `is_list_type` holds exactly of one list wrapper. -/
theorem isListType_eq_true_iff (f : FieldDefinition) :
    isListType f = true ↔ f.ty.listDepth = 1 := by
  rw [isListType, beq_iff_eq, countP_brackets_toString]
  omega

/-- The type helpers recover a type's structure from its rendering.  Around a
base name without `[`, `]` and `!`, under any nesting of list and non-null
wrappers, stripping all three leaves the base name, two brackets is one list
wrapper, and stripping the bangs leaves the base name in one pair of brackets
per wrapper.  So two one-level list fields over one base name share their
`list_field_types` key, whatever their bangs. -/
theorem typeHelpers_recover_structure :
    (∀ t : RawTy, (∀ c ∈ ['[', ']', '!'], c ∉ t.baseName.data) →
      stripChars ['[', ']', '!'] t.toString = t.baseName ∧
      (t.toString.data.countP (fun c => c ∈ ['[', ']']) == 2) = (t.listDepth == 1) ∧
      stripChars ['!'] t.toString =
        ⟨List.replicate t.listDepth '[' ++ t.baseName.data ++ List.replicate t.listDepth ']'⟩) ∧
    (∀ f : FieldDefinition, fieldTypeName f = f.ty.baseName.val ∧
      (isListType f = true ↔ f.ty.listDepth = 1) ∧
      listFieldTypeName f = ⟨List.replicate f.ty.listDepth '[' ++ f.ty.baseName.val.data ++
        List.replicate f.ty.listDepth ']'⟩) ∧
    ∀ f g : FieldDefinition, isListType f = true → isListType g = true →
      fieldTypeName f = fieldTypeName g → listFieldTypeName f = listFieldTypeName g := by
  refine ⟨fun t hN => ⟨String.ext (t.filter_toString hN), ?_, String.ext
      (t.filter_bang_toString (hN '!' (by simp)))⟩,
    fun f => ⟨fieldTypeName_eq_baseName f, isListType_eq_true_iff f, listFieldTypeName_eq f⟩,
    fun f g hf hg hfg => ?_⟩
  · rw [t.countP_brackets_toString fun c hc => hN c (List.mem_append_left ['!'] hc)]
    exact Bool.eq_iff_iff.2 (by simp only [beq_iff_eq]; omega)
  · rw [isListType_eq_true_iff] at hf hg
    rw [fieldTypeName_eq_baseName, fieldTypeName_eq_baseName] at hfg
    rw [listFieldTypeName_eq, listFieldTypeName_eq, hf, hg, hfg]

/-- `[Foo!]!` is a one-level list over `Foo`, with the list key `[Foo]`. -/
theorem fooList_typeHelpers :
    (∀ c ∈ ['[', ']', '!'], c ∉ (RawTy.list (.named "Foo" false) false).baseName.data) ∧
      stripChars ['[', ']', '!'] (RawTy.list (.named "Foo" false) false).toString = "Foo" ∧
      stripChars ['!'] (RawTy.list (.named "Foo" false) false).toString = "[Foo]" :=
  have h := typeHelpers_recover_structure.1 (.list (.named "Foo" false) false) (by decide)
  ⟨by decide, h.1, h.2.2⟩

end GraphQL
end FuelIndexer
