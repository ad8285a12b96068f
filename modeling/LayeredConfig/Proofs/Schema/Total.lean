import LayeredConfig.Proofs.Schema.Distinct

/-!
# Unfolding accepted schemas

Where every message that a field refers to is declared and no chain of references
passes a message twice, a chain is no longer than the list of messages.  This is
the depth to which messages are unfolded, so every declared message has a message
type (`exists_messageType?_of_acyclic`).  Accepted schemas are of this kind
(`exists_messageType?`).
-/

namespace LayeredConfig

namespace FieldType

theorem Denotes.declares_of_reference {declares : String → Declared → Prop} {text : List Char}
    {type : FieldType} (h : Denotes declares text type) {name : String}
    (hname : type.reference? = some name) : declares name .message := by
  have helement : ∀ {element : String} {single list : FieldType},
      Element declares element single list →
        single.reference? = some name ∨ list.reference? = some name → declares name .message := by
    intro element single list helement href
    cases helement with
    | scalar s => exact href.elim nofun nofun
    | enum h => exact href.elim nofun nofun
    | message h => exact href.elim (fun h' => Option.some.inj h' ▸ h) (fun h' => Option.some.inj h' ▸ h)
  cases h with
  | single h _ => exact helement h (.inl hname)
  | «repeated» h _ _ => exact helement h (.inr hname)
  | map => exact nomatch hname

end FieldType

namespace Schema

def ReferencesDeclared (messages : List MessageDecl) : Prop :=
  ∀ m ∈ messages, ∀ other ∈ m.references, other ∈ messages.map MessageDecl.name

variable {raw : RawSchema} {schema : Schema}

theorem referencesDeclared_of_resolve (h : resolve raw = .ok schema) :
    ReferencesDeclared schema.messages := by
  obtain ⟨hwf, hres⟩ := resolve_eq_ok_iff.1 h
  have hnames := map_eq_map_of_forall₂ (fun _ _ hm => hm.name.symm) hres.messages
  intro m hm other hother
  obtain ⟨field, hfield, href⟩ := List.mem_filterMap.1 hother
  obtain ⟨source, -, hmRes⟩ := exists_of_mem_right hres.messages hm
  obtain ⟨rawField, -, hfieldRes⟩ := exists_of_mem_right hmRes.fields hfield
  have hdeclared := hfieldRes.type.declares_of_reference href
  cases hdeclared with
  | message hsource' => exact hnames ▸ List.mem_map_of_mem hsource'

theorem isSome_unfoldFields {message? : String → Option Message} {decls : List FieldDecl}
    (h : ∀ decl ∈ decls, ∀ name, decl.type.reference? = some name → (message? name).isSome) :
    (unfoldFields message? decls).isSome := by
  induction decls with
  | nil => rfl
  | cons decl decls ih =>
    obtain ⟨hdecl, hdecls⟩ := List.forall_mem_cons.1 h
    obtain ⟨rest, hrest⟩ := Option.isSome_iff_exists.1 (ih hdecls)
    obtain ⟨name, type, doc⟩ := decl
    cases type with
    | plain kind => simp [unfoldFields, hrest]
    | message m =>
      obtain ⟨message, hm⟩ := Option.isSome_iff_exists.1 (hdecl m rfl)
      simp [unfoldFields, hrest, hm]
    | messageList m =>
      obtain ⟨message, hm⟩ := Option.isSome_iff_exists.1 (hdecl m rfl)
      simp [unfoldFields, hrest, hm]

theorem message?_name (hnames : (schema.messages.map MessageDecl.name).Nodup) {decl : MessageDecl}
    (hdecl : decl ∈ schema.messages) : schema.message? decl.name = some decl :=
  (find?_eq_some_iff_of_nodup hnames).2 ⟨hdecl, rfl⟩

theorem exists_unfoldFields (h : resolve raw = .ok schema) {decl : MessageDecl}
    (hdecl : decl ∈ schema.messages) {message : Message}
    (hmessage : schema.messageType? decl.name = some message) :
    ∃ message? : String → Option Message, unfoldFields message? decl.fields = some message.fields := by
  rw [messageType?] at hmessage
  cases hdepth : schema.messages.length with
  | zero => exact absurd hdecl (List.length_eq_zero_iff.1 hdepth ▸ List.not_mem_nil)
  | succ depth =>
    rw [hdepth] at hmessage
    obtain ⟨found, hfound, hmessage⟩ := Option.bind_eq_some_iff.1 hmessage
    obtain ⟨fields, hfields, hmessage⟩ := Option.bind_eq_some_iff.1 hmessage
    obtain rfl := Option.some.inj hmessage
    obtain rfl := Option.some.inj
      (hfound.symm.trans (message?_name (nodup_names_of_resolve h) hdecl))
    exact ⟨_, hfields⟩

section Acyclic

variable (hnames : (schema.messages.map MessageDecl.name).Nodup)
  (hdeclared : ReferencesDeclared schema.messages) (hacyclic : cycle? schema.messages = none)

include hnames hdeclared hacyclic

/-- A message at the end of a chain of declared messages can be unfolded, to a
depth that makes up for what the chain lacks in length. -/
theorem isSome_unfold (depth : Nat) (trail : List String) {name : String}
    (hdepth : schema.messages.length ≤ trail.length + depth)
    (hchain : (trail ++ [name]).IsChain (Refers (references schema.messages)))
    (htrail : ∀ other ∈ trail ++ [name], other ∈ schema.messages.map MessageDecl.name) :
    (schema.unfold depth name).isSome := by
  induction depth generalizing trail name with
  | zero =>
    have hlength := length_le_of_isChain hacyclic hchain htrail
    rw [List.length_append, List.length_singleton] at hlength
    omega
  | succ depth ih =>
    obtain ⟨decl, hdecl, rfl⟩ := List.mem_map.1 (htrail name (by simp))
    have hfields : (unfoldFields (schema.unfold depth) decl.fields).isSome := by
      refine isSome_unfoldFields fun field hfield other hother => ?_
      have hreference : other ∈ decl.references := List.mem_filterMap.2 ⟨field, hfield, hother⟩
      have hrefers : Refers (references schema.messages) decl.name other :=
        (mem_references_iff hnames).2 ⟨decl, hdecl, rfl, hreference⟩
      refine ih (trail ++ [decl.name]) ?_ ?_ ?_
      · rw [List.length_append, List.length_singleton]
        omega
      · rw [List.append_assoc, List.singleton_append]
        exact List.isChain_split.2 ⟨hchain, List.isChain_pair.2 hrefers⟩
      · exact List.forall_mem_append.2
          ⟨htrail, List.forall_mem_singleton.2 (hdeclared decl hdecl other hreference)⟩
    obtain ⟨fields, hfields⟩ := Option.isSome_iff_exists.1 hfields
    simp [unfold, message?_name hnames hdecl, hfields]

theorem exists_messageType?_of_acyclic {decl : MessageDecl} (hdecl : decl ∈ schema.messages) :
    ∃ message, schema.messageType? decl.name = some message := by
  have hname : decl.name ∈ schema.messages.map MessageDecl.name := List.mem_map_of_mem hdecl
  exact Option.isSome_iff_exists.1 (isSome_unfold hnames hdeclared hacyclic _ [] (by simp)
    (List.isChain_singleton _) (List.forall_mem_singleton.2 hname))

end Acyclic

theorem exists_messageType? (h : resolve raw = .ok schema) {decl : MessageDecl}
    (hdecl : decl ∈ schema.messages) : ∃ message, schema.messageType? decl.name = some message := by
  obtain ⟨names, -, -, hacyclic⟩ := resolve_eq_ok_iff_passes.1 h
  exact exists_messageType?_of_acyclic (nodup_names_of_resolve h) (referencesDeclared_of_resolve h)
    hacyclic hdecl

end Schema

end LayeredConfig
