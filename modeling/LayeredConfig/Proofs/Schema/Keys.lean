import LayeredConfig.Proofs.Message.Gather
import LayeredConfig.Proofs.Schema.Spelling
import LayeredConfig.Proofs.Schema.Total

/-!
# File keys in accepted schemas

Resolution compares the names of fields, not their camel case forms.  So two
fields of an accepted message may have a key in common, and they do exactly when
their names are equal after tidying (`exists_shared_key_iff`).  All message types
of a schema are unambiguous if and only if the tidied names are distinct in every
message (`unambiguous_iff`).
-/

namespace LayeredConfig

open Name

namespace Label

theorem mem_keys_iff {field : Label} {key : String} :
    key ∈ field.keys ↔ key = field.name ∨ key = toLowerCamel field.name := by
  rw [keys]
  split
  · rename_i h
    simp [h]
  · simp

/-- Fields share a key exactly when their names are equal after tidying. -/
theorem exists_shared_key_iff {field other : Label} (h : isFieldName field.name = true)
    (h' : isFieldName other.name = true) :
    (∃ key ∈ field.keys, key ∈ other.keys) ↔
      tidy field.name.toList = tidy other.name.toList := by
  rw [← toLowerCamel_eq_iff_tidy_eq h h']
  simp only [mem_keys_iff]
  constructor
  · rintro ⟨key, rfl | rfl, heq | heq⟩
    · rw [heq]
    · rw [heq, toLowerCamel_toLowerCamel h']
    · rw [← heq, toLowerCamel_toLowerCamel h]
    · exact heq
  · intro heq
    exact ⟨toLowerCamel field.name, .inr rfl, .inr heq⟩

end Label

def FieldDecl.label (decl : FieldDecl) : Label := ⟨decl.name, docLines decl.doc⟩

def MessageDecl.TidyDistinct (decl : MessageDecl) : Prop :=
  (decl.fields.map fun field => tidy field.name.toList).Nodup

instance instDecidableTidyDistinct (decl : MessageDecl) : Decidable decl.TidyDistinct :=
  inferInstanceAs (Decidable (List.Nodup _))

namespace Schema

theorem keys_of_unfoldFields {message? : String → Option Message} {decls : List FieldDecl}
    {fields : Fields} (h : unfoldFields message? decls = some fields) :
    fields.keys = decls.flatMap fun decl => decl.label.keys := by
  induction decls generalizing fields with
  | nil =>
    obtain rfl := Option.some.inj h
    rfl
  | cons decl decls ih =>
    obtain ⟨rest, hrest, ⟨kind, rfl⟩ | ⟨name, m, -, rfl | rfl⟩⟩ := unfoldFields_cons_eq_some h
    · exact congrArg (decl.label.keys ++ ·) (ih hrest)
    · exact congrArg (decl.label.keys ++ ·) (ih hrest)
    · exact congrArg (decl.label.keys ++ ·) (ih hrest)

/-- A field shares no key with those after it exactly when its tidied name is
none of theirs. -/
theorem forall_key_not_mem_iff {decl : FieldDecl} {decls : List FieldDecl}
    (h : ∀ field ∈ decl :: decls, isFieldName field.name = true) :
    (∀ key ∈ decl.label.keys, key ∉ decls.flatMap fun other => other.label.keys) ↔
      tidy decl.name.toList ∉ decls.map fun other => tidy other.name.toList := by
  obtain ⟨hdecl, hdecls⟩ := List.forall_mem_cons.1 h
  have hshared : ∀ other ∈ decls, (∃ key ∈ decl.label.keys, key ∈ other.label.keys) ↔
      tidy decl.name.toList = tidy other.name.toList :=
    fun other hother => Label.exists_shared_key_iff hdecl (hdecls other hother)
  simp only [List.mem_flatMap, List.mem_map, not_exists, not_and]
  constructor
  · intro hkeys other hother heq
    obtain ⟨key, hkey, hkey'⟩ := (hshared other hother).2 heq.symm
    exact hkeys key hkey other hother hkey'
  · intro htidy key hkey other hother hkey'
    exact htidy other hother ((hshared other hother).1 ⟨key, hkey, hkey'⟩).symm

/-- A message type is unambiguous if its own fields are and the messages it holds. -/
theorem unambiguous_of_unfoldFields {message? : String → Option Message} {decls : List FieldDecl}
    (hsub : ∀ name m, message? name = some m → m.fields.Unambiguous)
    (hvalid : ∀ decl ∈ decls, isFieldName decl.name = true)
    (htidy : (decls.map fun decl => tidy decl.name.toList).Nodup) {fields : Fields}
    (h : unfoldFields message? decls = some fields) : fields.Unambiguous := by
  induction decls generalizing fields with
  | nil =>
    obtain rfl := Option.some.inj h
    trivial
  | cons decl decls ih =>
    obtain ⟨hname, htidy⟩ := List.nodup_cons.1 htidy
    obtain ⟨-, hdecls⟩ := List.forall_mem_cons.1 hvalid
    have hkeys := (forall_key_not_mem_iff hvalid).2 hname
    obtain ⟨rest, hrest, ⟨kind, rfl⟩ | ⟨name, m, hm, rfl | rfl⟩⟩ := unfoldFields_cons_eq_some h
    · exact ⟨keys_of_unfoldFields hrest ▸ hkeys, ih hdecls htidy hrest⟩
    · exact ⟨keys_of_unfoldFields hrest ▸ hkeys, hsub name m hm, ih hdecls htidy hrest⟩
    · exact ⟨keys_of_unfoldFields hrest ▸ hkeys, hsub name m hm, ih hdecls htidy hrest⟩

theorem nodup_tidy_of_unambiguous {message? : String → Option Message} {decls : List FieldDecl}
    (hvalid : ∀ decl ∈ decls, isFieldName decl.name = true) {fields : Fields}
    (h : unfoldFields message? decls = some fields) (hkeys : fields.Unambiguous) :
    (decls.map fun decl => tidy decl.name.toList).Nodup := by
  induction decls generalizing fields with
  | nil => exact List.nodup_nil
  | cons decl decls ih =>
    obtain ⟨-, hdecls⟩ := List.forall_mem_cons.1 hvalid
    rw [List.map_cons, List.nodup_cons, ← forall_key_not_mem_iff hvalid]
    obtain ⟨rest, hrest, ⟨kind, rfl⟩ | ⟨name, m, -, rfl | rfl⟩⟩ := unfoldFields_cons_eq_some h
    · exact ⟨keys_of_unfoldFields hrest ▸ hkeys.1, ih hdecls hrest hkeys.2⟩
    · exact ⟨keys_of_unfoldFields hrest ▸ hkeys.1, ih hdecls hrest hkeys.2.2⟩
    · exact ⟨keys_of_unfoldFields hrest ▸ hkeys.1, ih hdecls hrest hkeys.2.2⟩

/-- The message types of an accepted schema are unambiguous exactly when the tidied
names are distinct in every message. -/
theorem unambiguous_iff {raw : RawSchema} {schema : Schema} (h : resolve raw = .ok schema) :
    (∀ name message, schema.messageType? name = some message → message.fields.Unambiguous) ↔
      ∀ decl ∈ schema.messages, decl.TidyDistinct := by
  constructor
  · intro hall decl hdecl
    obtain ⟨message, hmessage⟩ := exists_messageType? h hdecl
    obtain ⟨message?, hfields⟩ := exists_unfoldFields h hdecl hmessage
    exact nodup_tidy_of_unambiguous (wellNamed_of_resolve h hdecl).valid hfields
      (hall decl.name message hmessage)
  · intro htidy name message hmessage
    exact forall_messageType? (P := Fields.Unambiguous) (fun decl hdecl _ hsub _ hfields =>
      unambiguous_of_unfoldFields hsub (wellNamed_of_resolve h hdecl).valid (htidy decl hdecl)
        hfields) hmessage

end Schema

end LayeredConfig
