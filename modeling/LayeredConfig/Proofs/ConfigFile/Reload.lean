import LayeredConfig.Agent.Config
import LayeredConfig.Proofs.ConfigFile.Load
import LayeredConfig.Proofs.Message.Reload
import LayeredConfig.Specimen

/-!
# Writing a tree and loading it again

A tree is written as the pretty text of its document.  A file with that text is
loaded into the empty tree as the tree it was written from, and nothing in the
file is left out or unknown.
-/

namespace LayeredConfig

namespace ConfigFile

variable {message : Message}

/-- The document of a tree is laid over the empty tree without a word. -/
theorem merge_toSortedJson (hkeys : message.fields.Unambiguous) (path : FilePath)
    (tree : Tree message.fields) (hordered : tree.toSortedJson.Ordered) :
    merge message path tree.toSortedJson (Tree.empty _) = (.ok tree, []) := by
  have hdistinct := hkeys.distinct
  have haddressed : Tree.Addressed _ tree := Tree.addressed_of_addressable hkeys.addressable tree
  have hperm := Tree.ofList_sortedMembers_perm hdistinct tree
  rw [Tree.toSortedJson_eq] at hordered ⊢
  have htaken : ∀ m ∈ Assoc.ofList (Tree.sortedMembers message.fields tree),
      message.fields.Takes m :=
    fun m hm => Tree.takes_sortedMembers hdistinct haddressed m (hperm.subset hm)
  have hclean := Fields.clean_eq_self hkeys hordered (fun m hm _ => htaken m hm) []
  have hgives := Message.gives_decode_object_iff.2
    ((Tree.held_iff_addressed hdistinct [] tree hperm).2 haddressed)
  obtain ⟨unknown, hdecode⟩ := hgives
  obtain rfl := Message.quiet_decode htaken _ _ hdecode
  have hoverlay := (overlayTrees_eq_merge_iff hdistinct (Tree.empty _) tree).2
    (Tree.addressed_of_addressable hkeys.addressable _)
  rw [Tree.merge_empty_left] at hoverlay
  simp [merge, Message.clean, hclean, hdecode, hoverlay]

theorem parse_toText (hdepth : message.fields.depth ≤ Json.Reader.depthLimit) (path : FilePath)
    (tree : Tree message.fields) : parse .json path tree.toText = .ok tree.toSortedJson := by
  have hparse : Json.parse? tree.toText = some tree.toSortedJson :=
    Json.parse?_prettyText (tree.writable_toJson hdepth)
  rw [Tree.toSortedJson_eq] at hparse ⊢
  simp only [parse, hparse]
  rfl

/-- Writing a tree to a file and loading the file gives back the tree, and the only event
is that it was loaded. -/
theorem load_of_write (hkeys : message.fields.Unambiguous)
    (hdepth : message.fields.depth ≤ Json.Reader.depthLimit) {files after : FileSystem}
    {path : FilePath} (hformat : Format.ofPath? path = some .json) {tree : Tree message.fields}
    (hwrite : files.write path tree.toText = .ok after) :
    load message after path (Tree.empty _) = (.ok tree, [.loaded path]) := by
  have hread : read after path = .ok tree.toSortedJson := by
    rw [read_of_open? hformat (FileSystem.open?_of_write hwrite), parse_toText hdepth]
  have hmerge := merge_toSortedJson hkeys path tree (ordered_of_read hread)
  simp [load, hread, hmerge]

end ConfigFile

def Agent.messages : List Message := [config, reporting, dataCapture, message]

def Specimen.messages : List Message := [sink, leafy, empty, labels]

theorem unambiguous_and_depth_le :
    ∀ message ∈ Agent.messages ++ Specimen.messages,
      message.fields.Unambiguous ∧ message.fields.depth ≤ Json.Reader.depthLimit := by
  simp only [Agent.messages, Specimen.messages, List.cons_append, List.nil_append,
    List.forall_mem_cons]
  decide +kernel

namespace ConfigFile

/-- Every tree of the agent and of the specimen, written to a file and loaded again. -/
theorem load_written {message : Message} (hmessage : message ∈ Agent.messages ++ Specimen.messages)
    {files after : FileSystem} {path : FilePath} (hformat : Format.ofPath? path = some .json)
    {tree : Tree message.fields} (hwrite : files.write path tree.toText = .ok after) :
    load message after path (Tree.empty _) = (.ok tree, [.loaded path]) := by
  obtain ⟨hkeys, hdepth⟩ := unambiguous_and_depth_le message hmessage
  exact load_of_write hkeys hdepth hformat hwrite

/-- Every tree with every kind of field can be written over a file, and is loaded from it. -/
theorem load_written_sink :
    Specimen.sink ∈ Agent.messages ++ Specimen.messages ∧
      Format.ofPath? ⟨"/c.json"⟩ = some .json ∧
      ∀ tree : Tree Specimen.sink.fields, ∃ after,
        (FileSystem.oneFile "c.json" "").write ⟨"/c.json"⟩ tree.toText = .ok after ∧
        load Specimen.sink after ⟨"/c.json"⟩ (Tree.empty _) =
          (.ok tree, [.loaded ⟨"/c.json"⟩]) := by
  have hmessage : Specimen.sink ∈ Agent.messages ++ Specimen.messages := by
    simp [Agent.messages, Specimen.messages]
  have hformat : Format.ofPath? ⟨"/c.json"⟩ = some .json := by decide +kernel
  refine ⟨hmessage, hformat, fun tree => ?_⟩
  have hwrite : (FileSystem.oneFile "c.json" "").write ⟨"/c.json"⟩ tree.toText =
      .ok ((FileSystem.oneFile "c.json" "").set ["c.json"] (.file tree.toText.toUTF8)) := rfl
  exact ⟨_, hwrite, load_written hmessage hformat hwrite⟩

end ConfigFile

end LayeredConfig
