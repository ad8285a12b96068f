import LayeredConfig.Proofs.FileSystem
import Mathlib.Data.List.Infix

/-!
# Making directories

Making the directory at a path puts directories at the locations that the path comes by
(`way`), where there was nothing.  All else stays as it was, whether or not all of them
could be made (`AddsDirectories`).  If they could, the outcome is known
(`makeDirectories_eq_ok`), and making them once more changes nothing
(`makeDirectories_again`).
-/

namespace LayeredConfig.FileSystem

variable {files after last : FileSystem} {directory reached : Location} {path : FilePath}

/-! ## The locations on the way -/

theorem trail_eq_cons (directory : Location) (parts : List String) :
    trail directory parts = directory :: (trail directory parts).tail := by
  cases parts <;> rfl

theorem trail_cons_of_step {part : String} {next : Location} (h : step directory part = .ok next)
    (parts : List String) : trail directory (part :: parts) = directory :: trail next parts := by
  rw [trail, h]
  rfl

theorem trail_prefix_append (directory : Location) (parts more : List String) :
    trail directory parts <+: trail directory (parts ++ more) := by
  induction parts generalizing directory with
  | nil =>
    rw [List.nil_append, trail_eq_cons directory more]
    exact ⟨_, rfl⟩
  | cons part parts ih => exact (List.prefix_cons_inj directory).2 (ih _)

theorem follow_append_eq_ok_iff {parts more : List String} :
    files.follow directory (parts ++ more) = .ok reached ↔
      ∃ middle, files.follow directory parts = .ok middle ∧
        files.follow middle more = .ok reached := by
  induction parts generalizing directory with
  | nil => exact ⟨fun h => ⟨directory, rfl, h⟩, fun ⟨_, h, hmore⟩ => Except.ok.inj h ▸ hmore⟩
  | cons part parts ih =>
    rw [List.cons_append]
    constructor
    · intro h
      obtain ⟨next, hstep, hnode, hrest⟩ := follow_cons_eq_ok_iff.1 h
      obtain ⟨middle, hparts, hmore⟩ := ih.1 hrest
      exact ⟨middle, follow_cons_eq_ok_iff.2 ⟨next, hstep, hnode, hparts⟩, hmore⟩
    · rintro ⟨middle, h, hmore⟩
      obtain ⟨next, hstep, hnode, hparts⟩ := follow_cons_eq_ok_iff.1 h
      exact follow_cons_eq_ok_iff.2 ⟨next, hstep, hnode, ih.2 ⟨middle, hparts, hmore⟩⟩

/-- The end of parts that were followed is the last location on the way. -/
theorem trail_append {parts more : List String} {middle : Location}
    (h : files.follow directory parts = .ok middle) :
    trail directory (parts ++ more) = trail directory parts ++ (trail middle more).tail := by
  induction parts generalizing directory with
  | nil =>
    obtain rfl := Except.ok.inj h
    rw [List.nil_append, trail_eq_cons]
    rfl
  | cons part parts ih =>
    obtain ⟨next, hstep, -, hrest⟩ := follow_cons_eq_ok_iff.1 h
    rw [List.cons_append, trail_cons_of_step hstep, trail_cons_of_step hstep, ih hrest,
      List.cons_append]

theorem node?_of_mem_trail {parts : List String} (h : files.follow directory parts = .ok reached)
    {location : Location} (hmem : location ∈ (trail directory parts).tail) :
    files.node? location = some .directory := by
  induction parts generalizing directory with
  | nil => exact absurd hmem List.not_mem_nil
  | cons part parts ih =>
    obtain ⟨next, hstep, hnode, hrest⟩ := follow_cons_eq_ok_iff.1 h
    rw [trail_cons_of_step hstep, List.tail_cons, trail_eq_cons] at hmem
    rcases List.mem_cons.1 hmem with rfl | hmem
    · exact hnode
    · exact ih hrest hmem

theorem isDirectory_iff {parts : List String} :
    files.isDirectory directory parts = true ↔
      ∃ reached, files.follow directory parts = .ok reached := by
  rw [isDirectory]
  cases files.follow directory parts with
  | error error => simp
  | ok reached => simp

/-- The locations that a path comes by after its start. -/
def way (files : FileSystem) (path : FilePath) : List Location :=
  (trail (files.start path) path.parts).tail

def HasDirectory (files : FileSystem) (path : FilePath) : Prop :=
  files.isDirectory (files.start path) path.parts = true

theorem KeepsDirectories.hasDirectory (h : KeepsDirectories files after)
    (hbefore : files.HasDirectory path) : after.HasDirectory path := by
  obtain ⟨reached, hfollow⟩ := isDirectory_iff.1 hbefore
  rw [HasDirectory, h.start]
  exact isDirectory_iff.2 ⟨reached, h.follow hfollow⟩

/-! ## One step -/

/-- At some of the locations where there was nothing there are directories now, and nothing else
is new. -/
structure AddsDirectories (files after : FileSystem) (locations : List Location) : Prop where
  current : after.current = files.current
  node : ∀ location, after.node? location = files.node? location ∨
    (files.node? location = none ∧ after.node? location = some .directory ∧
      location ∈ locations)

namespace AddsDirectories

variable {locations more : List Location}

theorem refl (files : FileSystem) (locations : List Location) :
    AddsDirectories files files locations :=
  ⟨rfl, fun _ => Or.inl rfl⟩

theorem set {location : Location} (hfree : files.node? location = none)
    (hmem : location ∈ locations) :
    AddsDirectories files (files.set location .directory) locations := by
  refine ⟨rfl, fun other => ?_⟩
  by_cases hne : other = location
  · subst hne
    exact Or.inr ⟨hfree, node?_set_self files other _, hmem⟩
  · exact Or.inl (node?_set_of_ne hne _)

theorem mono (h : AddsDirectories files after locations) (hsub : locations ⊆ more) :
    AddsDirectories files after more :=
  ⟨h.current, fun location => (h.node location).imp_right
    fun ⟨hfree, hmade, hmem⟩ => ⟨hfree, hmade, hsub hmem⟩⟩

theorem trans (h : AddsDirectories files after locations)
    (hlast : AddsDirectories after last locations) : AddsDirectories files last locations := by
  refine ⟨hlast.current.trans h.current, fun location => ?_⟩
  rcases hlast.node location with heq | ⟨hfree, hmade, hmem⟩
  · rw [heq]
    exact h.node location
  · rcases h.node location with heq' | ⟨-, hmade', -⟩
    · exact Or.inr ⟨heq'.symm.trans hfree, hmade, hmem⟩
    · exact nomatch hfree.symm.trans hmade'

theorem node?_eq (h : AddsDirectories files after locations) {location : Location} {node : Node}
    (hnode : files.node? location = some node) : after.node? location = some node := by
  rcases h.node location with heq | ⟨hfree, -, -⟩
  · exact heq.trans hnode
  · exact nomatch hfree.symm.trans hnode

theorem keepsDirectories (h : AddsDirectories files after locations) :
    KeepsDirectories files after :=
  ⟨h.current, fun _ => h.node?_eq⟩

theorem locate (h : AddsDirectories files after locations) {location : Location}
    (hlocate : files.locate path = .ok location) : after.locate path = .ok location :=
  h.keepsDirectories.locate hlocate

theorem read (h : AddsDirectories files after locations) {text : String}
    (hread : files.read path = .ok text) : after.read path = .ok text := by
  obtain ⟨location, content, hlocate, hnode, htext⟩ := read_eq_ok_iff.1 hread
  exact read_eq_ok_iff.2 ⟨location, content, h.locate hlocate, h.node?_eq hnode, htext⟩

end AddsDirectories

/-- What making one directory does: its location, where there was nothing, is a directory now,
and so it can be followed to. -/
theorem makeDirectory_eq_ok {parts : List String} {inside : Bool}
    (h : files.makeDirectory directory parts inside = .ok after) :
    AddsDirectories files after (trail directory parts).tail ∧
      after.isDirectory directory parts = true := by
  rw [makeDirectory] at h
  obtain ⟨parent, hparent, h⟩ := bind_eq_ok_iff.1 h
  cases hpart : parts.getLast? with
  | none =>
    rw [hpart] at h
    cases h
  | some part =>
    rw [hpart] at h
    obtain ⟨location, hstep, h⟩ := bind_eq_ok_iff.1 h
    cases hfree : files.node? location with
    | some node =>
      rw [hfree] at h
      cases node <;> cases inside <;> cases h
    | none =>
      rw [hfree] at h
      cases inside with
      | true => cases h
      | false =>
        obtain rfl := Except.ok.inj h
        have hparts : parts = parts.dropLast ++ [part] :=
          (List.dropLast_append_getLast? part (Option.mem_def.2 hpart)).symm
        have hmem : location ∈ (trail directory parts).tail := by
          rw [hparts, trail_append hparent, trail_cons_of_step hstep, trail_eq_cons directory]
          simp [trail]
        refine ⟨.set hfree hmem, isDirectory_iff.2 ⟨location, ?_⟩⟩
        have hkeeps := (AddsDirectories.set hfree hmem).keepsDirectories
        have hlast : (files.set location .directory).follow parent [part] = .ok location :=
          follow_cons_eq_ok_iff.2 ⟨location, hstep, node?_set_self files location _, rfl⟩
        have hall := follow_append_eq_ok_iff.2 ⟨parent, hkeeps.follow hparent, hlast⟩
        rwa [← hparts] at hall

theorem makeDirectory_of_isDirectory {parts : List String} {part : String}
    (h : files.isDirectory directory (parts ++ [part]) = true) (inside : Bool) :
    files.makeDirectory directory (parts ++ [part]) inside = .error .alreadyExists := by
  obtain ⟨reached, hfollow⟩ := isDirectory_iff.1 h
  obtain ⟨parent, hparent, hlast⟩ := follow_append_eq_ok_iff.1 hfollow
  obtain ⟨location, hstep, hnode, -⟩ := follow_cons_eq_ok_iff.1 hlast
  rw [makeDirectory, List.dropLast_concat, hparent, List.getLast?_concat]
  simp only [Bind.bind, Except.bind, hstep, hnode]

/-! ## The whole path -/

/-- Making directories one after the other adds directories on the way, also if it fails.  If it
does not, they can be followed to their end. -/
theorem makeAll_adds (directory : Location) (files : FileSystem) (reversed : List String)
    (inside : Bool) :
    AddsDirectories files (makeAll directory files reversed inside).2
        (trail directory reversed.reverse).tail ∧
      ((makeAll directory files reversed inside).1 = .ok () →
        (makeAll directory files reversed inside).2.isDirectory directory reversed.reverse =
          true) := by
  induction reversed generalizing files inside with
  | nil => exact ⟨.refl _ _, fun _ => rfl⟩
  | cons part above ih =>
    have hsettled : ∀ (files : FileSystem) (error : FileError),
        (if files.isDirectory directory (part :: above).reverse then Except.ok ()
          else .error error) = .ok () →
          files.isDirectory directory (part :: above).reverse = true := by
      intro files error h
      split at h
      · assumption
      · cases h
    have hsub : (trail directory above.reverse).tail ⊆
        (trail directory (part :: above).reverse).tail := by
      rw [List.reverse_cons]
      exact (trail_prefix_append directory above.reverse [part]).sublist.tail.subset
    rw [makeAll]
    split
    · rename_i hmade
      obtain ⟨hadds, hdirectory⟩ := makeDirectory_eq_ok hmade
      exact ⟨hadds, fun _ => hdirectory⟩
    · -- the directory above was missing, and is made first
      obtain ⟨habove, -⟩ := ih files false
      split
      · rename_i habove'
        rw [habove'] at habove
        exact ⟨habove.mono hsub, fun h => nomatch h⟩
      · rename_i between habove'
        rw [habove'] at habove
        split
        · rename_i hmade
          obtain ⟨hadds, hdirectory⟩ := makeDirectory_eq_ok hmade
          exact ⟨(habove.mono hsub).trans hadds, fun _ => hdirectory⟩
        · exact ⟨habove.mono hsub, hsettled _ _⟩
    · exact ⟨.refl _ _, hsettled _ _⟩

theorem makeAll_of_isDirectory {reversed : List String}
    (h : files.isDirectory directory reversed.reverse = true) (inside : Bool) :
    makeAll directory files reversed inside = (.ok (), files) := by
  cases reversed with
  | nil => rfl
  | cons part above =>
    have hmade : files.makeDirectory directory (part :: above).reverse inside =
        .error .alreadyExists := by
      rw [List.reverse_cons] at h ⊢
      exact makeDirectory_of_isDirectory h inside
    rw [makeAll, hmade]
    simp only [h, if_true]

def withDirectories (files : FileSystem) (locations : List Location) : FileSystem :=
  { files with node? := fun location =>
      if location ∈ locations then some .directory else files.node? location }

theorem makeDirectories_adds (files : FileSystem) (path : FilePath) :
    AddsDirectories files (files.makeDirectories path).2 (files.way path) ∧
      ((files.makeDirectories path).1 = .ok () →
        (files.makeDirectories path).2.HasDirectory path) := by
  rw [makeDirectories]
  split
  · rename_i hempty
    refine ⟨.refl _ _, fun _ => ?_⟩
    obtain ⟨text⟩ := path
    obtain rfl : text = "" := hempty
    rfl
  · split
    · exact ⟨.refl _ _, fun h => nomatch h⟩
    · obtain ⟨hadds, hdirectory⟩ :=
        makeAll_adds (files.start path) files path.parts.reverse path.endsInDot
      rw [List.reverse_reverse] at hadds hdirectory
      refine ⟨hadds, fun h => ?_⟩
      rw [HasDirectory, hadds.keepsDirectories.start]
      exact hdirectory h

/-- Directories that could be made are at the locations that the path comes by.  All else is as
it was, and nothing was replaced. -/
theorem makeDirectories_eq_ok (h : files.makeDirectories path = (.ok (), after)) :
    after = files.withDirectories (files.way path) ∧
      AddsDirectories files after (files.way path) ∧ after.HasDirectory path := by
  obtain ⟨hadds, hdirectory⟩ := makeDirectories_adds files path
  rw [h] at hadds hdirectory
  have hthere := hdirectory rfl
  refine ⟨?_, hadds, hthere⟩
  obtain ⟨reached, hfollow⟩ := isDirectory_iff.1 hthere
  rw [hadds.keepsDirectories.start] at hfollow
  obtain ⟨current, node?⟩ := after
  obtain rfl : current = files.current := hadds.current
  rw [withDirectories]
  congr 1
  funext location
  by_cases hmem : location ∈ files.way path
  · rw [if_pos hmem]
    exact node?_of_mem_trail hfollow hmem
  · rw [if_neg hmem]
    exact (hadds.node location).resolve_right fun hnew => hmem hnew.2.2

theorem makeDirectories_of_hasDirectory (hpath : path.text = "" ∨ check path = .ok ())
    (h : files.HasDirectory path) : files.makeDirectories path = (.ok (), files) := by
  rw [makeDirectories]
  split
  · rfl
  · rename_i hempty
    rw [hpath.resolve_left hempty]
    refine makeAll_of_isDirectory ?_ _
    rwa [List.reverse_reverse]

theorem check_of_makeDirectories (h : files.makeDirectories path = (.ok (), after)) :
    path.text = "" ∨ check path = .ok () := by
  refine or_iff_not_imp_left.2 fun hempty => ?_
  rw [makeDirectories, if_neg hempty] at h
  split at h
  · cases h
  · assumption

/-- A request for directories that succeeded changed nothing exactly if the directory was
there. -/
theorem makeDirectories_unchanged_iff (h : files.makeDirectories path = (.ok (), after)) :
    after = files ↔ files.HasDirectory path := by
  refine ⟨fun heq => heq ▸ (makeDirectories_eq_ok h).2.2, fun hbefore => ?_⟩
  have hsame := makeDirectories_of_hasDirectory (check_of_makeDirectories h) hbefore
  exact (Prod.mk.inj (h.symm.trans hsame)).2

theorem makeDirectories_again (h : files.makeDirectories path = (.ok (), after)) :
    after.makeDirectories path = (.ok (), after) :=
  makeDirectories_of_hasDirectory (check_of_makeDirectories h) (makeDirectories_eq_ok h).2.2

end LayeredConfig.FileSystem
