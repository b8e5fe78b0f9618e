import FieldLookahead.Proofs.OrderedMap
import FieldLookahead.Proofs.Schema.Loading

namespace FieldLookahead.Schema

/-! The first extension of a type against a longer definition. An extension does the same to a type
as if its contents stood at the end of the definition, since nothing that is read in between looks
at what the type lists. -/

/-- A body that lists what another one of its kind does, and then more. -/
inductive Joins : Sdl.TypeBody → Sdl.TypeBody → Sdl.TypeBody → Prop
  | object (interfaces others : List String) (fields more : List Sdl.Field) :
      Joins (.object interfaces fields) (.object others more)
        (.object (interfaces ++ others) (fields ++ more))
  | interface (interfaces others : List String) (fields more : List Sdl.Field) :
      Joins (.interface interfaces fields) (.interface others more)
        (.interface (interfaces ++ others) (fields ++ more))
  | union (members more : List String) :
      Joins (.union members) (.union more) (.union (members ++ more))
  | enum (values more : List Sdl.EnumValue) :
      Joins (.enum values) (.enum more) (.enum (values ++ more))
  | input (fields more : List Sdl.Input) :
      Joins (.input fields) (.input more) (.input (fields ++ more))

namespace Shape

variable {file? : Option String} {heading : Heading}

theorem addField_addInterface (declared : Sdl.Field) (interface : String) (shape : Shape) :
    Concur (addField file? heading shape declared >>= (addInterface heading · interface))
      (addInterface heading shape interface >>= (addField file? heading · declared)) := by
  intro result
  simp only [bind_eq_ok, addField_eq_ok, addInterface_eq_ok]
  constructor
  · rintro ⟨_, ⟨fresh, rfl⟩, absent, rfl⟩
    exact ⟨_, ⟨absent, rfl⟩, fresh, rfl⟩
  · rintro ⟨_, ⟨absent, rfl⟩, fresh, rfl⟩
    exact ⟨_, ⟨fresh, rfl⟩, absent, rfl⟩

theorem addFields_addInterfaces (file? : Option String) (heading : Heading)
    (fields : List Sdl.Field) (interfaces : List String) (shape : Shape) :
    Concur (interfaces.foldlM (addInterface heading) shape >>=
        fields.foldlM (addField file? heading))
      (fields.foldlM (addField file? heading) shape >>=
        interfaces.foldlM (addInterface heading)) := by
  refine Concur.foldlM_comm (fun interface _ shape => Concur.symm ?_) shape
  exact Concur.foldlM_comm (fun declared _ shape => addField_addInterface declared interface shape)
    shape

theorem grow_append (interfaces others : List String) (fields more : List Sdl.Field)
    (shape : Shape) :
    Concur (shape.grow file? heading (interfaces ++ others) (fields ++ more))
      (shape.grow file? heading interfaces fields >>= fun grown =>
        grown.grow file? heading others more) := by
  simp only [grow, List.foldlM_append, bind_assoc]
  refine (Concur.refl _).bind fun middle => ?_
  have swapped := addFields_addInterfaces file? heading fields others middle
  have parts := swapped.bind fun grown => .refl (more.foldlM (addField file? heading) grown)
  simpa only [bind_assoc] using parts

end Shape

namespace NamedType

variable {body more longer : Sdl.TypeBody}

theorem addMember_concur (heading : Heading) (location other : Syntax.Location)
    (members : List String) (member : String) :
    Concur (addMember heading location members member)
      (addMember heading other members member) := by
  intro result
  rw [addMember_eq_ok, addMember_eq_ok]

theorem grow_of_joins (joins : Joins body more longer) (file? : Option String)
    (location other : Syntax.Location) (type : NamedType) :
    Concur (grow file? location longer type)
      (grow file? location body type >>= grow file? other more) := by
  cases joins with
  | object interfaces others fields more =>
      cases type with
      | object heading shape =>
          exact (shape.grow_append interfaces others fields more).map_bind fun _ => rfl
      | builtin _ | scalar _ | interface _ _ | union _ _ | enum _ _ | input _ _ => exact .refl _
  | interface interfaces others fields more =>
      cases type with
      | interface heading shape =>
          exact (shape.grow_append interfaces others fields more).map_bind fun _ => rfl
      | builtin _ | scalar _ | object _ _ | union _ _ | enum _ _ | input _ _ => exact .refl _
  | union members more =>
      cases type with
      | union heading known =>
          have parts : Concur ((members ++ more).foldlM (addMember heading location) known)
              (members.foldlM (addMember heading location) known >>= fun listed =>
                more.foldlM (addMember heading other) listed) := by
            rw [List.foldlM_append]
            refine (Concur.refl _).bind (Concur.foldlM fun member _ listed => ?_)
            exact addMember_concur heading location other listed member
          exact parts.map_bind fun _ => rfl
      | builtin _ | scalar _ | object _ _ | interface _ _ | enum _ _ | input _ _ => exact .refl _
  | enum values more =>
      cases type with
      | enum heading known =>
          have parts : Concur ((values ++ more).foldlM (addValue file? heading) known)
              (values.foldlM (addValue file? heading) known >>= fun listed =>
                more.foldlM (addValue file? heading) listed) := by
            rw [List.foldlM_append]
            exact .refl _
          exact parts.map_bind fun _ => rfl
      | builtin _ | scalar _ | object _ _ | interface _ _ | union _ _ | input _ _ => exact .refl _
  | input fields more =>
      cases type with
      | input heading known =>
          rw [grow, List.foldl_append]
          exact .refl _
      | builtin _ | scalar _ | object _ _ | interface _ _ | union _ _ | enum _ _ => exact .refl _

theorem blank_of_joins (joins : Joins body more longer) (heading : Heading) :
    blank heading longer = blank heading body := by
  cases joins <;> rfl

theorem ofDefinition_of_joins {definition : Sdl.TypeDefinition}
    (joins : Joins definition.body more longer) (file? : Option String)
    (location : Syntax.Location) :
    Concur (ofDefinition file? { definition with body := longer })
      (ofDefinition file? definition >>= grow file? location more) := by
  rw [ofDefinition, blank_of_joins joins]
  exact grow_of_joins joins file? _ location _

end NamedType

namespace TypeTable

variable {table : TypeTable} {type grown : NamedType}

theorem eq_of_byName {table other : TypeTable} (same : table.byName = other.byName) :
    table = other := by
  cases table
  cases other
  cases same
  rfl

theorem insert_insert (same : grown.name = type.name) :
    (table.insert type).insert grown = table.insert grown := by
  refine eq_of_byName (OrderedMap.eq_of_entries ?_)
  change Assoc.insert grown.name grown (Assoc.insert type.name type _) = Assoc.insert _ _ _
  rw [same, Assoc.insert_insert]

theorem insert_comm (differs : grown.name ≠ type.name) (known : (table.get? grown.name).isSome) :
    (table.insert grown).insert type = (table.insert type).insert grown :=
  eq_of_byName <| OrderedMap.eq_of_entries <|
    Assoc.insert_comm differs ((Assoc.get?_isSome _ _).mp known) grown type

theorem get?_extend_of_ne {source : Option String × Sdl.TypeExtension} {before after : TypeTable}
    (extended : before.extend source = .ok after) {name : String} (differs : source.2.name ≠ name) :
    after.get? name = before.get? name := by
  obtain ⟨type, grown, known, grows, rfl⟩ := extend_eq_ok.mp extended
  have named : grown.name = source.2.name := (NamedType.name_grow grows).trans (name_of_get? known)
  exact get?_insert_of_ne (named.trans_ne differs)

theorem extend_insert {source : Option String × Sdl.TypeExtension}
    (differs : type.name ≠ source.2.name) :
    (table.insert type).extend source = (table.extend source).map (·.insert type) := by
  obtain ⟨file?, extension⟩ := source
  rw [extend, extend, get?_insert_of_ne differs]
  cases known : table.get? extension.name with
  | none => rfl
  | some target =>
      dsimp only
      cases grows : NamedType.grow file? ⟨file?, extension.position⟩ extension.body target with
      | error fault => rfl
      | ok grown =>
          have named : grown.name = extension.name :=
            (NamedType.name_grow grows).trans (name_of_get? known)
          refine congrArg Except.ok (insert_comm ?_ ?_).symm
          · rw [named]
            exact differs.symm
          · rw [named]
            exact Option.isSome_of_eq_some known

theorem extend_swap {source other : Option String × Sdl.TypeExtension}
    (differs : other.2.name ≠ source.2.name) {table result : TypeTable}
    (extended : table.extend other >>= (·.extend source) = .ok result) :
    table.extend source >>= (·.extend other) = .ok result := by
  obtain ⟨_, first, second⟩ := bind_eq_ok.mp extended
  obtain ⟨type, grown, known, grows, rfl⟩ := extend_eq_ok.mp first
  have named : grown.name = other.2.name := (NamedType.name_grow grows).trans (name_of_get? known)
  rw [extend_insert (named.trans_ne differs)] at second
  obtain ⟨types, sooner, rfl⟩ := map_eq_ok.mp second
  refine bind_eq_ok.mpr ⟨types, sooner, extend_eq_ok.mpr ⟨type, grown, ?_, grows, rfl⟩⟩
  rw [get?_extend_of_ne sooner differs.symm, known]

theorem extend_comm {source other : Option String × Sdl.TypeExtension}
    (differs : other.2.name ≠ source.2.name) (table : TypeTable) :
    Concur (table.extend other >>= (·.extend source))
      (table.extend source >>= (·.extend other)) :=
  fun _ => ⟨extend_swap differs, extend_swap differs.symm⟩

end TypeTable

namespace Draft

variable {draft before after : Draft} {source : Option String × Sdl.TypeExtension}

def extend (draft : Draft) (source : Option String × Sdl.TypeExtension) : Except Fault Draft :=
  (draft.types.extend source).map fun types => { draft with types }

theorem extend_eq_ok :
    before.extend source = .ok after ↔
      ∃ types, before.types.extend source = .ok types ∧ { before with types } = after :=
  map_eq_ok

theorem extend_comm {other : Option String × Sdl.TypeExtension}
    (differs : other.2.name ≠ source.2.name) (draft : Draft) :
    Concur (draft.extend other >>= (·.extend source))
      (draft.extend source >>= (·.extend other)) := by
  have apart (one two : Option String × Sdl.TypeExtension) :
      draft.extend one >>= (·.extend two) =
        (draft.types.extend one >>= (·.extend two)).map fun types => { draft with types } :=
    map_bind_eq fun _ => rfl
  rw [apart, apart]
  exact (TypeTable.extend_comm differs draft.types).map _

theorem addRoots_comm (file? : Option String) (named : Sdl.Roots) (draft : Draft) :
    Concur (draft.addRoots file? named >>= (·.extend source))
      (draft.extend source >>= (·.addRoots file? named)) := by
  have kept (types : TypeTable) : ({ draft with types } : Draft).addRoots file? named =
      (draft.addRoots file? named).map fun draft => { draft with types } :=
    addRoots_convert (fun draft => { draft with types }) (fun _ => rfl) (fun _ _ => rfl) draft file?
      named
  intro result
  simp only [bind_eq_ok, extend_eq_ok]
  constructor
  · rintro ⟨next, noted, types, extended, rfl⟩
    rw [addRoots_types noted] at extended
    exact ⟨_, ⟨types, extended, rfl⟩, (kept types).trans (noted ▸ rfl)⟩
  · rintro ⟨_, ⟨types, extended, rfl⟩, noted⟩
    obtain ⟨next, added, rfl⟩ := map_eq_ok.mp ((kept types).symm.trans noted)
    rw [← addRoots_types added] at extended
    exact ⟨next, added, types, extended, rfl⟩

theorem addType_comm {file? : Option String} {definition : Sdl.TypeDefinition}
    (other : definition.name ≠ source.2.name) (draft : Draft) :
    Concur (draft.addType file? definition >>= (·.extend source))
      (draft.extend source >>= (·.addType file? definition)) := by
  intro result
  simp only [bind_eq_ok, extend_eq_ok, addType_eq_ok]
  constructor
  · rintro ⟨_, ⟨type, made, fresh, rfl⟩, _, extended, rfl⟩
    have differs : type.name ≠ source.2.name := (NamedType.name_ofDefinition made).trans_ne other
    rw [TypeTable.extend_insert differs] at extended
    obtain ⟨types, sooner, rfl⟩ := map_eq_ok.mp extended
    refine ⟨_, ⟨types, sooner, rfl⟩, type, made, ?_, rfl⟩
    rw [TypeTable.get?_extend_of_ne sooner differs.symm, fresh]
  · rintro ⟨_, ⟨types, extended, rfl⟩, type, made, fresh, rfl⟩
    have differs : type.name ≠ source.2.name := (NamedType.name_ofDefinition made).trans_ne other
    rw [TypeTable.get?_extend_of_ne extended differs.symm] at fresh
    refine ⟨_, ⟨type, made, fresh, rfl⟩, _, ?_, rfl⟩
    rw [TypeTable.extend_insert differs, extended]
    rfl

theorem add_comm {entry : Filed} (plain : extension? entry = none)
    (other : definedName? entry.2 ≠ some source.2.name) (draft : Draft) :
    Concur (draft.add entry >>= (·.extend source)) (draft.extend source >>= (·.add entry)) := by
  obtain ⟨file?, definition⟩ := entry
  cases definition with
  | extension extension => cases plain
  | directive =>
      have unchanged : draft.extend source >>= (·.add (file?, .directive)) = draft.extend source :=
        bind_pure _
      rw [unchanged]
      exact .refl _
  | roots named => exact addRoots_comm file? named draft
  | type definition => exact addType_comm (fun same => other (congrArg some same)) draft

theorem addType_joins {file? : Option String} {definition : Sdl.TypeDefinition}
    {extension : Sdl.TypeExtension} {longer : Sdl.TypeBody}
    (same : extension.name = definition.name)
    (joins : Joins definition.body extension.body longer) (draft : Draft) :
    Concur (draft.addType file? { definition with body := longer })
      (draft.addType file? definition >>= (·.extend (file?, extension))) := by
  have parts := NamedType.ofDefinition_of_joins joins file? ⟨file?, extension.position⟩
  intro result
  simp only [bind_eq_ok, extend_eq_ok, addType_eq_ok, TypeTable.extend_eq_ok]
  constructor
  · rintro ⟨grown, made, fresh, rfl⟩
    obtain ⟨type, makes, grows⟩ := bind_eq_ok.mp ((parts grown).mp made)
    have named : grown.name = type.name := NamedType.name_grow grows
    rw [named] at fresh
    refine ⟨_, ⟨type, makes, fresh, rfl⟩, _, ⟨type, grown, ?_, grows, rfl⟩, ?_⟩
    · rw [same, ← NamedType.name_ofDefinition makes, TypeTable.get?_insert_self]
    · rw [TypeTable.insert_insert named]
  · rintro ⟨_, ⟨type, makes, fresh, rfl⟩, _, ⟨target, grown, found, grows, rfl⟩, rfl⟩
    rw [same, ← NamedType.name_ofDefinition makes, TypeTable.get?_insert_self] at found
    cases found
    have named : grown.name = type.name := NamedType.name_grow grows
    rw [← named] at fresh
    refine ⟨grown, (parts grown).mpr (bind_eq_ok.mpr ⟨type, makes, grows⟩), fresh, ?_⟩
    rw [TypeTable.insert_insert named]

theorem extend_early (source : Option String × Sdl.TypeExtension) {entries : List Filed}
    {sources : List (Option String × Sdl.TypeExtension)}
    (plain : ∀ entry ∈ entries, extension? entry = none)
    (defineOthers : ∀ entry ∈ entries, definedName? entry.2 ≠ some source.2.name)
    (extendOthers : ∀ other ∈ sources, other.2.name ≠ source.2.name) (draft : Draft) :
    Concur
      (entries.foldlM add draft >>= fun next => sources.foldlM extend next >>= (·.extend source))
      (draft.extend source >>= fun next => entries.foldlM add next >>= sources.foldlM extend) := by
  have pastExtensions (next : Draft) :
      Concur (sources.foldlM extend next >>= (·.extend source))
        (next.extend source >>= sources.foldlM extend) :=
    Concur.foldlM_comm (fun other member => extend_comm (extendOthers other member)) next
  have pastDefinitions :
      Concur (entries.foldlM add draft >>= (·.extend source))
        (draft.extend source >>= entries.foldlM add) :=
    Concur.foldlM_comm
      (fun entry member => add_comm (plain entry member) (defineOthers entry member)) draft
  refine ((Concur.refl _).bind pastExtensions).trans ?_
  have parts := pastDefinitions.bind fun next => .refl (sources.foldlM extend next)
  simpa only [bind_assoc] using parts

/-- A definition may list at once what the first extension of its type adds later. -/
theorem add_lengthened (file? : Option String) {definition : Sdl.TypeDefinition}
    {extension : Sdl.TypeExtension} {longer : Sdl.TypeBody}
    (same : extension.name = definition.name)
    (joins : Joins definition.body extension.body longer) {entries : List Filed}
    {sources : List (Option String × Sdl.TypeExtension)}
    (plain : ∀ entry ∈ entries, extension? entry = none)
    (defineOthers : ∀ entry ∈ entries, definedName? entry.2 ≠ some definition.name)
    (extendOthers : ∀ other ∈ sources, other.2.name ≠ definition.name) (draft : Draft) :
    Concur
      (draft.add (file?, .type { definition with body := longer }) >>= fun next =>
        entries.foldlM add next >>= sources.foldlM extend)
      (draft.add (file?, .type definition) >>= fun next => entries.foldlM add next >>= fun read =>
        sources.foldlM extend read >>= (·.extend (file?, extension))) := by
  have joined : Concur (draft.add (file?, .type { definition with body := longer }))
      (draft.add (file?, .type definition) >>= (·.extend (file?, extension))) :=
    addType_joins same joins draft
  have early (next : Draft) := extend_early (file?, extension) plain (same ▸ defineOthers)
    (same ▸ extendOthers) next
  have sooner := joined.bind fun next =>
    .refl (entries.foldlM add next >>= sources.foldlM extend)
  rw [bind_assoc] at sooner
  exact sooner.trans ((Concur.refl _).bind fun next => (early next).symm)

end Draft

theorem ofDraft_queue {draft : Draft} (none : draft.extensions = [])
    (more : List (Option String × Sdl.TypeExtension)) :
    ofDraft (draft.queue more) = more.foldlM Draft.extend draft >>= ofDraft := by
  induction more generalizing draft with
  | nil => rw [Draft.queue_nil, List.foldlM_nil, pure_bind]
  | cons source rest ih =>
      obtain ⟨types, roots, extensions⟩ := draft
      cases none
      rw [List.foldlM_cons, bind_assoc, Draft.extend]
      have first : ofDraft (Draft.queue ⟨types, roots, []⟩ (source :: rest)) =
          types.extend source >>= fun types => ofDraft (Draft.queue ⟨types, roots, []⟩ rest) := by
        rw [ofDraft]
        simp only [Draft.queue, Draft.mapExtensions, List.nil_append, List.foldlM_cons, bind_assoc]
        rfl
      rw [first]
      cases types.extend source with
      | error fault => rfl
      | ok next => exact ih rfl

theorem ofDocuments_eq_extended (documents : List (Option String × Sdl.Document)) :
    ofDocuments documents =
      (definitionsAmong (filed documents)).foldlM Draft.add .empty >>= fun draft =>
        (extensionsAmong (filed documents)).foldlM Draft.extend draft >>= ofDraft := by
  rw [ofDocuments_eq]
  have plain := extension?_definitionsAmong (filed documents)
  cases read : (definitionsAmong (filed documents)).foldlM Draft.add .empty with
  | error fault => rfl
  | ok draft => exact ofDraft_queue (Draft.extensions_foldlM_add plain read) _

/-- The first extension of a type that comes from the file of its definition may be left out if
the definition lists in the end what the extension does: the same schema comes out, or none. -/
theorem ofDocuments_lengthened {documents others : List (Option String × Sdl.Document)}
    {front back before after : List Filed} {file? : Option String}
    {definition : Sdl.TypeDefinition} {extension : Sdl.TypeExtension} {longer : Sdl.TypeBody}
    (extended : filed documents = front ++ (file?, .extension extension) :: back)
    (defined : front ++ back = before ++ (file?, .type definition) :: after)
    (once : ∀ entry ∈ before ++ after, definedName? entry.2 ≠ some definition.name)
    (same : extension.name = definition.name)
    (first : ∀ source ∈ extensionsAmong front, source.2.name ≠ definition.name)
    (joins : Joins definition.body extension.body longer)
    (lengthened : filed others =
      before ++ (file?, .type { definition with body := longer }) :: after) (schema : Schema) :
    ofDocuments documents = .ok schema ↔ ofDocuments others = .ok schema := by
  have definitions : definitionsAmong (filed documents) =
      definitionsAmong before ++ (file?, .type definition) :: definitionsAmong after := by
    have passed : definitionsAmong (filed documents) = definitionsAmong (front ++ back) := by
      rw [extended, definitionsAmong_append, definitionsAmong_extension, definitionsAmong_append]
    rw [passed, defined, definitionsAmong_append, definitionsAmong_type]
  have extensions : extensionsAmong (filed others) =
      extensionsAmong front ++ extensionsAmong back := by
    rw [← extensionsAmong_append, defined, lengthened, extensionsAmong_append, extensionsAmong_type,
      extensionsAmong_append, extensionsAmong_type]
  have defineOthers : ∀ entry ∈ definitionsAmong after,
      definedName? entry.2 ≠ some definition.name :=
    fun entry member => once entry (List.mem_append_right _ (List.mem_of_mem_filter member))
  rw [ofDocuments_eq_extended, ofDocuments_eq_extended, definitions, extensions, extended,
    lengthened]
  simp only [definitionsAmong_append, definitionsAmong_type, extensionsAmong_append,
    extensionsAmong_extension, List.foldlM_append, List.foldlM_cons, bind_assoc]
  revert schema
  refine (Concur.refl _).bind fun draft => ?_
  have middle := Draft.add_lengthened file? same joins (extension?_definitionsAmong after)
    defineOthers first draft
  have parts := middle.symm.bind fun next =>
    .refl ((extensionsAmong back).foldlM Draft.extend next >>= ofDraft)
  simpa only [bind_assoc] using parts

def houndField (name typeName : String) (line : Nat) : Sdl.Field :=
  ⟨name, .named typeName, [], none, ⟨line, 3⟩⟩

def hound : Sdl.TypeDefinition :=
  ⟨"Hound", none, ⟨1, 1⟩, .object [] [houndField "barks" "Boolean" 2]⟩

def houndExtension : Sdl.TypeExtension :=
  ⟨"Hound", ⟨2, 1⟩, .object ["Animal"] [houndField "name" "String" 3]⟩

def houndGuest : Filed := (some "hounds.graphql", .extension ⟨"Guest", ⟨1, 1⟩, .union ["Hound"]⟩)

def houndQuery : Filed :=
  (some "hounds.graphql",
    .type ⟨"Query", none, ⟨5, 1⟩, .object [] [houndField "guest" "Guest" 6]⟩)

def houndOthers : List Filed :=
  [(none, .type ⟨"Animal", none, ⟨1, 1⟩, .interface [] [houndField "name" "String" 2]⟩),
    (none, .type ⟨"Guest", none, ⟨3, 1⟩, .union []⟩),
    (none, .extension ⟨"Hound", ⟨4, 1⟩, .object [] [houndField "age" "Int" 5]⟩)]

def houndDocuments : List (Option String × Sdl.Document) :=
  scattered ([houndGuest, (some "hounds.graphql", .extension houndExtension), houndQuery,
    (some "hounds.graphql", .type hound)] ++ houndOthers)

def longBody : Sdl.TypeBody :=
  .object ["Animal"] [houndField "barks" "Boolean" 2, houndField "name" "String" 3]

def longHoundDocuments : List (Option String × Sdl.Document) :=
  scattered ([houndGuest, houndQuery,
    (some "hounds.graphql", .type { hound with body := longBody })] ++ houndOthers)

theorem isSome_hounds : (ofDocuments houndDocuments).toOption.isSome = true := by
  decide

def hounds : Schema := (ofDocuments houndDocuments).toOption.get isSome_hounds

theorem ofDocuments_lengthened_of_hounds :
    ∃ front back before after,
      filed houndDocuments =
        front ++ (some "hounds.graphql", .extension houndExtension) :: back ∧
      front ++ back = before ++ (some "hounds.graphql", .type hound) :: after ∧
      (∀ entry ∈ before ++ after, definedName? entry.2 ≠ some hound.name) ∧
      (∀ source ∈ extensionsAmong front, source.2.name ≠ hound.name) ∧
      Joins hound.body houndExtension.body longBody ∧
      filed longHoundDocuments =
        before ++ (some "hounds.graphql", .type { hound with body := longBody }) :: after ∧
      ofDocuments houndDocuments = .ok hounds ∧ ofDocuments longHoundDocuments = .ok hounds := by
  have extended : filed houndDocuments = [houndGuest] ++
      (some "hounds.graphql", .extension houndExtension) ::
        houndQuery :: (some "hounds.graphql", .type hound) :: houndOthers := rfl
  have defined : [houndGuest] ++ houndQuery :: (some "hounds.graphql", .type hound) :: houndOthers =
      [houndGuest, houndQuery] ++ (some "hounds.graphql", .type hound) :: houndOthers := rfl
  have once : ∀ entry ∈ [houndGuest, houndQuery] ++ houndOthers,
      definedName? entry.2 ≠ some hound.name := by decide
  have first : ∀ source ∈ extensionsAmong [houndGuest], source.2.name ≠ hound.name := by decide
  have joins : Joins hound.body houndExtension.body longBody := .object [] ["Animal"] _ _
  have lengthened : filed longHoundDocuments = [houndGuest, houndQuery] ++
      (some "hounds.graphql", .type { hound with body := longBody }) :: houndOthers := rfl
  have made : ofDocuments houndDocuments = .ok hounds := eq_ok_of_isSome isSome_hounds
  exact ⟨_, _, _, _, extended, defined, once, first, joins, lengthened, made,
    (ofDocuments_lengthened extended defined once rfl first joins lengthened hounds).mp made⟩

end FieldLookahead.Schema
