import LayeredConfig.Proofs.Schema.Total

/-!
# The search for cycles, without fuel

`Search` describes the search by its steps alone.  It has one outcome at most
(`Search.unique`), and the fuel that the messages are given is enough to come to it
(`search_foldlM`), so the search ends.  What it finds is a matter of the graph of
message fields (`Contains`), whatever the order of the declarations.  Where nothing
is found, whatever follows the references ends: message types are their own
unfoldings (`unfoldFields_messageType?`), and their messages nest less deep than
there are messages.
-/

namespace LayeredConfig

/-- How deep the messages of fields are nested in each other. -/
def Fields.nesting : Fields → Nat
  | nil => 0
  | plain _ _ rest => rest.nesting
  | nested _ _ sub rest | nestedList _ _ sub rest => max (sub.nesting + 1) rest.nesting

theorem FieldType.reference?_eq_some_iff {type : FieldType} {name : String} :
    type.reference? = some name ↔ type = .message name ∨ type = .messageList name := by
  cases type <;> simp [reference?]

namespace Schema

open Relation

/-! ## Steps of the search -/

/-- The visits of some names, while the messages of a trail are under way and others are
done.  What comes out are the messages that are done then, or the trail closed to a cycle. -/
inductive Search (refs : String → List String) :
    List String → List String → List String → Except (List String) (List String) → Prop
  | nil (trail done : List String) : Search refs trail done [] (.ok done)
  | skip {trail done names : List String} {name : String}
    {outcome : Except (List String) (List String)} (hdone : name ∈ done)
    (hrest : Search refs trail done names outcome) : Search refs trail done (name :: names) outcome
  | close {trail done : List String} {name : String} (names : List String) (hdone : name ∉ done)
    (htrail : name ∈ trail) :
    Search refs trail done (name :: names) (.error (trail.dropWhile (fun n => n != name) ++ [name]))
  | fail {trail done cycle : List String} {name : String} (names : List String)
    (hdone : name ∉ done) (htrail : name ∉ trail)
    (hinner : Search refs (trail ++ [name]) done (refs name) (.error cycle)) :
    Search refs trail done (name :: names) (.error cycle)
  | enter {trail done between names : List String} {name : String}
    {outcome : Except (List String) (List String)} (hdone : name ∉ done) (htrail : name ∉ trail)
    (hinner : Search refs (trail ++ [name]) done (refs name) (.ok between))
    (hrest : Search refs trail (name :: between) names outcome) :
    Search refs trail done (name :: names) outcome

variable {refs : String → List String}

theorem Search.unique {trail done names : List String}
    {outcome other : Except (List String) (List String)} (h : Search refs trail done names outcome)
    (h' : Search refs trail done names other) : outcome = other := by
  induction h generalizing other with
  | nil =>
    cases h'
    rfl
  | skip hdone _ ih =>
    cases h' with
    | skip _ hrest => exact ih hrest
    | close _ hnot | fail _ hnot | enter hnot => exact absurd hdone hnot
  | close _ hdone htrail =>
    cases h' with
    | skip hmem => exact absurd hmem hdone
    | close => rfl
    | fail _ _ hnot | enter _ hnot => exact absurd htrail hnot
  | fail _ hdone htrail _ ih =>
    cases h' with
    | skip hmem => exact absurd hmem hdone
    | close _ _ hmem => exact absurd hmem htrail
    | fail _ _ _ hinner => exact ih hinner
    | enter _ _ hinner _ => exact nomatch ih hinner
  | enter hdone htrail _ _ ihinner ihrest =>
    cases h' with
    | skip hmem => exact absurd hmem hdone
    | close _ _ hmem => exact absurd hmem htrail
    | fail _ _ _ hinner => exact nomatch ihinner hinner
    | enter _ _ hinner hrest =>
      cases ihinner hinner
      exact ihrest hrest

/-- With enough fuel, the visits come to the outcome of the search.  What is left of the fuel
and the trail together stay above the number of declared names. -/
theorem search_foldlM {declared : List String} (hdeclared : ∀ name, refs name ≠ [] → name ∈ declared)
    (fuel : Nat) {trail : List String} (hnodup : trail.Nodup)
    (hsub : ∀ name ∈ trail, name ∈ declared) (hfuel : declared.length < trail.length + fuel)
    (names done : List String) :
    Search refs trail done names (names.foldlM (visit refs fuel trail) done) := by
  induction fuel generalizing trail names done with
  | zero =>
    have hshort := (List.subperm_of_subset hnodup hsub).length_le
    omega
  | succ fuel ih =>
    induction names generalizing done with
    | nil => exact .nil trail done
    | cons name names ihnames =>
      rw [List.foldlM_cons, visit]
      by_cases hdone : name ∈ done
      · rw [if_pos (List.contains_iff_mem.2 hdone)]
        exact .skip hdone (ihnames done)
      rw [if_neg (mt List.contains_iff_mem.1 hdone)]
      by_cases htrail : name ∈ trail
      · rw [if_pos (List.contains_iff_mem.2 htrail)]
        exact .close names hdone htrail
      rw [if_neg (mt List.contains_iff_mem.1 htrail)]
      have hinner : Search refs (trail ++ [name]) done (refs name)
          ((refs name).foldlM (visit refs fuel (trail ++ [name])) done) := by
        by_cases href : refs name = []
        · rw [href]
          exact .nil _ done
        · refine ih ?_ ?_ ?_ (refs name) done
          · rw [← List.concat_eq_append]
            exact hnodup.concat htrail
          · exact List.forall_mem_append.2
              ⟨hsub, List.forall_mem_singleton.2 (hdeclared name href)⟩
          · rw [List.length_append, List.length_singleton]
            omega
      cases hfold : (refs name).foldlM (visit refs fuel (trail ++ [name])) done with
      | error cycle =>
        rw [hfold] at hinner
        exact .fail names hdone htrail hinner
      | ok between =>
        rw [hfold] at hinner
        exact .enter hdone htrail hinner (ihnames (name :: between))

variable {messages : List MessageDecl}

/-- The search among messages, from each of them in declaration order. -/
def Finds (messages : List MessageDecl) (outcome : Except (List String) (List String)) : Prop :=
  Search (references messages) [] [] (messages.map MessageDecl.name) outcome

/-- The fuel that the messages are given is enough. -/
theorem finds_visitAll (messages : List MessageDecl) : Finds messages (visitAll messages) :=
  search_foldlM (fun _ => mem_names_of_references_ne_nil) _ List.nodup_nil
    (fun _ h => absurd h List.not_mem_nil) (by simp) _ []

theorem existsUnique_finds (messages : List MessageDecl) : ∃! outcome, Finds messages outcome :=
  ⟨_, finds_visitAll messages, fun _ h => h.unique (finds_visitAll messages)⟩

theorem cycle?_eq_some_iff_finds {names : List String} :
    cycle? messages = some names ↔ Finds messages (.error names) := by
  rw [cycle?_eq_some_iff]
  exact ⟨fun h => h ▸ finds_visitAll messages, fun h => (finds_visitAll messages).unique h⟩

/-! ## The graph of messages -/

/-- A message has a field that holds another one, or a list of them. -/
def Contains (messages : List MessageDecl) (name other : String) : Prop :=
  ∃ m ∈ messages, m.name = name ∧
    ∃ field ∈ m.fields, field.type = .message other ∨ field.type = .messageList other

theorem contains_iff {name other : String} :
    Contains messages name other ↔ ∃ m ∈ messages, m.name = name ∧ other ∈ m.references := by
  simp only [Contains, MessageDecl.references, List.mem_filterMap,
    FieldType.reference?_eq_some_iff]

/-- The references that are followed are those of the graph. -/
theorem refers_eq_contains (hnames : (messages.map MessageDecl.name).Nodup) :
    Refers (references messages) = Contains messages := by
  funext name other
  rw [Refers, mem_references_iff hnames, contains_iff]

theorem contains_eq_of_perm {more : List MessageDecl} (h : messages.Perm more) :
    Contains messages = Contains more := by
  funext name other
  simp only [Contains, h.mem_iff]

theorem exists_cycle?_iff (hnames : (messages.map MessageDecl.name).Nodup) :
    (∃ names, cycle? messages = some names) ↔ ∃ name, TransGen (Contains messages) name name := by
  rw [← Option.ne_none_iff_exists', ne_eq, cycle?_eq_none_iff, refers_eq_contains hnames]
  push Not
  rfl

theorem cycle_of_cycle? (hnames : (messages.map MessageDecl.name).Nodup) {names : List String}
    (h : cycle? messages = some names) : ∃ name inner, names = name :: inner ++ [name] ∧
      names.IsChain (Contains messages) ∧ (name :: inner).Nodup := by
  rcases cycle?_spec messages with ⟨found, hfound, hcycle⟩ | ⟨hnone, -⟩
  · obtain rfl := Option.some.inj (h.symm.trans hfound)
    obtain ⟨name, inner, rfl⟩ := hcycle.closed
    refine ⟨name, inner, rfl, refers_eq_contains hnames ▸ hcycle.chain, ?_⟩
    have hnodup := hcycle.nodup
    rwa [List.dropLast_concat] at hnodup
  · exact nomatch h.symm.trans hnone

theorem mem_names_of_isChain (hdeclared : ReferencesDeclared messages) {name : String}
    {names : List String} (hname : name ∈ messages.map MessageDecl.name)
    (hchain : (name :: names).IsChain (Contains messages)) :
    ∀ other ∈ name :: names, other ∈ messages.map MessageDecl.name := by
  induction names generalizing name with
  | nil => exact List.forall_mem_singleton.2 hname
  | cons next names ih =>
    obtain ⟨hstep, hrest⟩ := List.isChain_cons_cons.1 hchain
    obtain ⟨m, hm, -, hnext⟩ := contains_iff.1 hstep
    exact List.forall_mem_cons.2 ⟨hname, ih (hdeclared m hm next hnext) hrest⟩

theorem length_lt_of_isChain (hnames : (messages.map MessageDecl.name).Nodup)
    (hdeclared : ReferencesDeclared messages) (hacyclic : cycle? messages = none) {name : String}
    {names : List String} (hname : name ∈ messages.map MessageDecl.name)
    (hchain : (name :: names).IsChain (Contains messages)) : names.length < messages.length := by
  have hpassed := mem_names_of_isChain hdeclared hname hchain
  rw [← refers_eq_contains hnames] at hchain
  exact length_le_of_isChain hacyclic hchain hpassed

theorem Ends.acc {name : String} (h : Ends refs name) :
    Acc (fun other name => Refers refs name other) name := by
  induction h with
  | intro name _ ih => exact Acc.intro name fun other hother => ih other hother

/-- Without cycles, whatever follows the references ends. -/
theorem wellFounded_contains (hnames : (messages.map MessageDecl.name).Nodup)
    (hacyclic : cycle? messages = none) :
    WellFounded fun other name => Contains messages name other := by
  rw [← refers_eq_contains hnames]
  rcases cycle?_spec messages with ⟨names, hcycle, -⟩ | ⟨-, hends⟩
  · exact nomatch hcycle.symm.trans hacyclic
  · exact ⟨fun name => (hends name).acc⟩

/-! ## Message types -/

theorem unfoldFields_mono {message? more? : String → Option Message} {decls : List FieldDecl}
    (h : ∀ name m, message? name = some m → more? name = some m) {fields : Fields}
    (hfields : unfoldFields message? decls = some fields) :
    unfoldFields more? decls = some fields := by
  induction decls generalizing fields with
  | nil => exact hfields
  | cons decl decls ih =>
    obtain ⟨rest, hrest, hfield⟩ := Option.bind_eq_some_iff.1 hfields
    obtain ⟨name, type, doc⟩ := decl
    refine Option.bind_eq_some_iff.2 ⟨rest, ih hrest, ?_⟩
    cases type with
    | plain kind => exact hfield
    | message other | messageList other =>
      obtain ⟨m, hm, hfield⟩ := Option.bind_eq_some_iff.1 hfield
      exact Option.bind_eq_some_iff.2 ⟨m, h other m hm, hfield⟩

variable {schema : Schema}

/-- The message type called `name` is the same to any greater depth. -/
theorem unfold_succ {depth : Nat} {name : String} {message : Message}
    (h : schema.unfold depth name = some message) :
    schema.unfold (depth + 1) name = some message := by
  induction depth generalizing name message with
  | zero => exact nomatch h
  | succ depth ih =>
    obtain ⟨decl, hdecl, h⟩ := Option.bind_eq_some_iff.1 h
    obtain ⟨fields, hfields, h⟩ := Option.bind_eq_some_iff.1 h
    refine Option.bind_eq_some_iff.2 ⟨decl, hdecl, Option.bind_eq_some_iff.2 ⟨fields, ?_, h⟩⟩
    exact unfoldFields_mono (fun _ _ => ih) hfields

theorem nesting_le_of_unfoldFields {message? : String → Option Message} {depth : Nat}
    (h : ∀ name m, message? name = some m → m.fields.nesting < depth) {decls : List FieldDecl}
    {fields : Fields} (hfields : unfoldFields message? decls = some fields) :
    fields.nesting ≤ depth := by
  induction decls generalizing fields with
  | nil =>
    obtain rfl := Option.some.inj hfields
    exact Nat.zero_le depth
  | cons decl decls ih =>
    obtain ⟨rest, hrest, ⟨kind, rfl⟩ | ⟨name, m, hm, rfl | rfl⟩⟩ :=
      unfoldFields_cons_eq_some hfields
    · have hle : rest.nesting ≤ depth := ih hrest
      exact hle
    · exact max_le (h name m hm) (ih hrest)
    · exact max_le (h name m hm) (ih hrest)

theorem nesting_lt_of_unfold {depth : Nat} {name : String} {message : Message}
    (h : schema.unfold depth name = some message) : message.fields.nesting < depth := by
  induction depth generalizing name message with
  | zero => exact nomatch h
  | succ depth ih =>
    obtain ⟨decl, -, h⟩ := Option.bind_eq_some_iff.1 h
    obtain ⟨fields, hfields, h⟩ := Option.bind_eq_some_iff.1 h
    obtain rfl := Option.some.inj h
    exact Nat.lt_succ_of_le (nesting_le_of_unfoldFields (fun _ _ => ih) hfields)

/-- A message type is made of the fields of its declaration, with the message types that they
refer to in their places. -/
theorem unfoldFields_messageType? (hnames : (schema.messages.map MessageDecl.name).Nodup)
    {decl : MessageDecl} (hdecl : decl ∈ schema.messages) {message : Message}
    (h : schema.messageType? decl.name = some message) :
    unfoldFields schema.messageType? decl.fields = some message.fields := by
  obtain ⟨found, hfound, hunfold⟩ := Option.bind_eq_some_iff.1 (unfold_succ h)
  obtain rfl := Option.some.inj (hfound.symm.trans (message?_name hnames hdecl))
  obtain ⟨fields, hfields, hsome⟩ := Option.bind_eq_some_iff.1 hunfold
  obtain rfl := Option.some.inj hsome
  exact hfields

/-- The search for cycles, for messages with distinct names that refer to declared ones.  It
ends with one outcome, which is the one that is reported.  It reports a cycle exactly when
the graph of message fields has one, in whatever order the messages are declared, and then
the reported names are a cycle of the graph.  Otherwise a chain of references is shorter than
the list of messages, and whatever follows the references ends: every declared message has a
message type, which unfolds all that it refers to and nests less deep than there are messages,
and everything that recurses along nested messages is a recursion on this type. -/
theorem cycle?_correct {messages : List MessageDecl}
    (hnames : (messages.map MessageDecl.name).Nodup) (hdeclared : ReferencesDeclared messages) :
    ((∃! outcome, Finds messages outcome) ∧
      ∀ names, cycle? messages = some names ↔ Finds messages (.error names)) ∧
    ((∃ names, cycle? messages = some names) ↔
      ∃ name, TransGen (Contains messages) name name) ∧
    (∀ more, messages.Perm more →
      ((∃ names, cycle? more = some names) ↔ ∃ names, cycle? messages = some names)) ∧
    (∀ names, cycle? messages = some names → ∃ name inner, names = name :: inner ++ [name] ∧
      names.IsChain (Contains messages) ∧ (name :: inner).Nodup) ∧
    (cycle? messages = none →
      (∀ name ∈ messages.map MessageDecl.name, ∀ names,
        (name :: names).IsChain (Contains messages) → names.length < messages.length) ∧
      (WellFounded fun other name => Contains messages name other) ∧
      ∀ enums, ∀ decl ∈ messages, ∃ message,
        messageType? ⟨enums, messages⟩ decl.name = some message ∧
        unfoldFields (messageType? ⟨enums, messages⟩) decl.fields = some message.fields ∧
        message.fields.nesting < messages.length) := by
  refine ⟨⟨existsUnique_finds messages, fun names => cycle?_eq_some_iff_finds⟩,
    exists_cycle?_iff hnames, fun more hperm => ?_, fun names => cycle_of_cycle? hnames,
    fun hacyclic => ⟨fun name hname names => length_lt_of_isChain hnames hdeclared hacyclic hname,
      wellFounded_contains hnames hacyclic, fun enums decl hdecl => ?_⟩⟩
  · have hmore : (more.map MessageDecl.name).Nodup := (hperm.map _).nodup_iff.1 hnames
    rw [exists_cycle?_iff hnames, exists_cycle?_iff hmore, contains_eq_of_perm hperm]
  · have hsome : ∃ message, messageType? ⟨enums, messages⟩ decl.name = some message :=
      exists_messageType?_of_acyclic hnames hdeclared hacyclic hdecl
    obtain ⟨message, hmessage⟩ := hsome
    exact ⟨message, hmessage, unfoldFields_messageType? hnames hdecl hmessage,
      nesting_lt_of_unfold hmessage⟩

/-- Messages that hold the next one, and the fields of the last. -/
def nestedMessages (last : List FieldDecl) : List MessageDecl :=
  [⟨"Root", "", [⟨"part", .message "Part", ""⟩]⟩,
   ⟨"Part", "", [⟨"items", .messageList "Item", ""⟩]⟩, ⟨"Item", "", last⟩]

/-- A field of the last message closes a cycle, which is reported without the message in
front of it.  Without the field no chain has more than two references. -/
theorem cycle?_nestedMessages :
    cycle? (nestedMessages [⟨"part", .message "Part", ""⟩]) = some ["Part", "Item", "Part"] ∧
      (∃ name, TransGen (Contains (nestedMessages [⟨"part", .message "Part", ""⟩])) name name) ∧
      cycle? (nestedMessages []) = none ∧
      ∀ names, ("Root" :: names).IsChain (Contains (nestedMessages [])) → names.length < 3 := by
  have hnames : ∀ last, ((nestedMessages last).map MessageDecl.name).Nodup :=
    fun _ => by simp [nestedMessages]
  have hcycle : cycle? (nestedMessages [⟨"part", .message "Part", ""⟩]) =
      some ["Part", "Item", "Part"] := by decide
  have hacyclic : cycle? (nestedMessages []) = none := by decide
  have hclosed : ReferencesDeclared (nestedMessages [⟨"part", .message "Part", ""⟩]) := by
    unfold ReferencesDeclared
    decide
  have hopen : ReferencesDeclared (nestedMessages []) := by
    unfold ReferencesDeclared
    decide
  obtain ⟨-, hgraph, -⟩ := cycle?_correct (hnames _) hclosed
  obtain ⟨-, -, -, -, hends⟩ := cycle?_correct (hnames _) hopen
  exact ⟨hcycle, hgraph.1 ⟨_, hcycle⟩, hacyclic,
    fun names hchain => (hends hacyclic).1 "Root" (by decide) names hchain⟩

end Schema

end LayeredConfig
