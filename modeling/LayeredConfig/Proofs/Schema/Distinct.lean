import LayeredConfig.Proofs.Message.Encode
import LayeredConfig.Proofs.Schema.Resolve
import LayeredConfig.Schema.Unfold

/-!
# Names in accepted schemas

Resolving a schema refuses a message with two fields of one name.  Unfolding
keeps the names, so in the message types of an accepted schema they are
distinct at every depth.  What holds of every message type is proved message by
message (`forall_messageType?`).
-/

namespace LayeredConfig.Schema

theorem unfoldFields_cons_eq_some {message? : String → Option Message} {decl : FieldDecl}
    {decls : List FieldDecl} {fields : Fields}
    (h : unfoldFields message? (decl :: decls) = some fields) :
    ∃ rest, unfoldFields message? decls = some rest ∧
      ((∃ kind, fields = .plain ⟨decl.name, docLines decl.doc⟩ kind rest) ∨
        ∃ name m, message? name = some m ∧
          (fields = .nested ⟨decl.name, docLines decl.doc⟩ m.label m.fields rest ∨
            fields = .nestedList ⟨decl.name, docLines decl.doc⟩ m.label m.fields rest)) := by
  obtain ⟨rest, hrest, h⟩ := Option.bind_eq_some_iff.1 h
  refine ⟨rest, hrest, ?_⟩
  split at h
  · exact Or.inl ⟨_, (Option.some.inj h).symm⟩
  · obtain ⟨m, hm, h⟩ := Option.bind_eq_some_iff.1 h
    exact Or.inr ⟨_, m, hm, Or.inl (Option.some.inj h).symm⟩
  · obtain ⟨m, hm, h⟩ := Option.bind_eq_some_iff.1 h
    exact Or.inr ⟨_, m, hm, Or.inr (Option.some.inj h).symm⟩

theorem names_of_unfoldFields {message? : String → Option Message} {decls : List FieldDecl}
    {fields : Fields} (h : unfoldFields message? decls = some fields) :
    fields.names = decls.map FieldDecl.name := by
  induction decls generalizing fields with
  | nil =>
    obtain rfl := Option.some.inj h
    rfl
  | cons decl decls ih =>
    obtain ⟨rest, hrest, ⟨kind, rfl⟩ | ⟨name, m, -, rfl | rfl⟩⟩ := unfoldFields_cons_eq_some h
    · exact congrArg (decl.name :: ·) (ih hrest)
    · exact congrArg (decl.name :: ·) (ih hrest)
    · exact congrArg (decl.name :: ·) (ih hrest)

theorem distinct_of_unfoldFields {message? : String → Option Message} {decls : List FieldDecl}
    (hmessage : ∀ name m, message? name = some m → m.fields.Distinct)
    (hdecls : (decls.map FieldDecl.name).Nodup) {fields : Fields}
    (h : unfoldFields message? decls = some fields) : fields.Distinct := by
  induction decls generalizing fields with
  | nil =>
    obtain rfl := Option.some.inj h
    trivial
  | cons decl decls ih =>
    obtain ⟨hname, hdecls⟩ := List.nodup_cons.1 hdecls
    obtain ⟨rest, hrest, ⟨kind, rfl⟩ | ⟨name, m, hm, rfl | rfl⟩⟩ := unfoldFields_cons_eq_some h
    · exact ⟨names_of_unfoldFields hrest ▸ hname, ih hdecls hrest⟩
    · exact ⟨names_of_unfoldFields hrest ▸ hname, hmessage name m hm, ih hdecls hrest⟩
    · exact ⟨names_of_unfoldFields hrest ▸ hname, hmessage name m hm, ih hdecls hrest⟩

/-- What the fields of a declared message have if the messages that they hold have
it, every message type has. -/
theorem forall_messageType? {schema : Schema} {P : Fields → Prop}
    (h : ∀ decl ∈ schema.messages, ∀ message? : String → Option Message,
      (∀ name m, message? name = some m → P m.fields) →
        ∀ fields, unfoldFields message? decl.fields = some fields → P fields)
    {name : String} {message : Message} (hmessage : schema.messageType? name = some message) :
    P message.fields := by
  have hunfold : ∀ depth name message, schema.unfold depth name = some message →
      P message.fields := by
    intro depth
    induction depth with
    | zero => exact fun _ _ h => nomatch h
    | succ depth ih =>
      intro name message hmessage
      obtain ⟨decl, hdecl, hmessage⟩ := Option.bind_eq_some_iff.1 hmessage
      obtain ⟨fields, hfields, hmessage⟩ := Option.bind_eq_some_iff.1 hmessage
      obtain rfl := Option.some.inj hmessage
      exact h decl (List.mem_of_find?_eq_some hdecl) _ ih fields hfields
  exact hunfold _ name message hmessage

/-- In the message types of an accepted schema no message, at any depth, has
two fields of one name. -/
theorem distinct_of_messageType? {raw : RawSchema} {schema : Schema}
    (h : resolve raw = .ok schema) {name : String} {message : Message}
    (hmessage : schema.messageType? name = some message) : message.fields.Distinct :=
  forall_messageType? (P := Fields.Distinct) (fun _ hdecl _ hsub _ hfields =>
    distinct_of_unfoldFields hsub (wellNamed_of_resolve h hdecl).distinct hfields) hmessage

end LayeredConfig.Schema
