import Mathlib.Data.List.Chain
import Mathlib.Data.List.Nodup
import Mathlib.Data.List.TakeWhile
import Mathlib.Data.List.Perm.Subperm
import Mathlib.Logic.Relation
import LayeredConfig.Proofs.Except
import LayeredConfig.Schema.Cycle

/-!
# What the search for cycles finds

`Ends` says that no chain of references from a message goes on for ever.  The
search visits a message while a trail of messages is under way.  Where it
succeeds, the message and all that were done before end; where it fails, it
reports a cycle (`visit_spec`).  The fuel is never used up, because the trail has
no name twice and all its names are declared.  So the messages have a cycle if
and only if the search reports one (`cycle?_eq_none_iff`), and without cycles a
chain of references is no longer than the list of messages.
-/

namespace LayeredConfig.Schema

open Relation

def Refers (refs : String → List String) (name other : String) : Prop :=
  other ∈ refs name

/-- Every chain of references from a message comes to an end. -/
inductive Ends (refs : String → List String) : String → Prop
  | intro (name : String) (h : ∀ other ∈ refs name, Ends refs other) : Ends refs name

/-- A chain of references that ends where it began, without passing anything
else twice. -/
structure IsCycle (refs : String → List String) (names : List String) : Prop where
  closed : ∃ name inner, names = name :: inner ++ [name]
  chain : names.IsChain (Refers refs)
  nodup : names.dropLast.Nodup

variable {refs : String → List String}

theorem Ends.not_transGen {name : String} (h : Ends refs name) :
    ¬ TransGen (Refers refs) name name := by
  induction h with
  | intro name _ ih =>
    intro hcycle
    obtain ⟨other, hstep, hback⟩ := TransGen.head'_iff.1 hcycle
    exact ih other hstep (TransGen.tail' hback hstep)

theorem pairwise_transGen_of_isChain {names : List String} (h : names.IsChain (Refers refs)) :
    names.Pairwise (TransGen (Refers refs)) :=
  (h.imp fun _ _ => TransGen.single).pairwise

theorem IsCycle.transGen {names : List String} (h : IsCycle refs names) :
    ∃ name, TransGen (Refers refs) name name := by
  obtain ⟨name, inner, rfl⟩ := h.closed
  have hpairs := pairwise_transGen_of_isChain h.chain
  rw [List.cons_append, List.pairwise_cons] at hpairs
  exact ⟨name, hpairs.1 name (by simp)⟩

/-- Without cycles a chain passes nothing twice. -/
theorem nodup_of_isChain (hacyclic : ∀ name, ¬ TransGen (Refers refs) name name)
    {names : List String} (h : names.IsChain (Refers refs)) : names.Nodup := by
  refine (pairwise_transGen_of_isChain h).imp fun hstep heq => ?_
  subst heq
  exact hacyclic _ hstep

/-! ## One visit -/

/-- The trail from the first occurrence of a name on, closed by that name. -/
theorem isCycle_of_mem_trail {trail : List String} {name : String} (hnodup : trail.Nodup)
    (hchain : (trail ++ [name]).IsChain (Refers refs)) (hmem : name ∈ trail) :
    IsCycle refs (trail.dropWhile (fun n => n != name) ++ [name]) := by
  have hne : trail.dropWhile (fun n => n != name) ≠ [] := by
    simpa [List.dropWhile_eq_nil_iff] using hmem
  obtain ⟨first, inner, hdrop⟩ := List.exists_cons_of_ne_nil hne
  have hfirst : first = name := by
    have hhead := List.head_dropWhile_not (fun n => n != name) hne
    simpa [hdrop] using hhead
  subst hfirst
  have hsuffix := List.dropWhile_suffix (l := trail) fun n => n != first
  rw [hdrop] at hsuffix ⊢
  obtain ⟨before, hbefore⟩ := hsuffix
  refine ⟨⟨first, inner, rfl⟩, ?_, ?_⟩
  · refine hchain.suffix ⟨before, ?_⟩
    rw [← List.append_assoc, hbefore]
  · rw [List.dropLast_concat]
    rw [← hbefore] at hnodup
    exact hnodup.of_append_right

/-- What a visit has to give: more is done than before, the visited names among
it, and it all ends; or else there is a cycle. -/
def Visited (refs : String → List String) (done names : List String) :
    Except (List String) (List String) → Prop
  | .ok done' => (∀ name ∈ done, name ∈ done') ∧ (∀ name ∈ names, name ∈ done') ∧
      ((∀ name ∈ done, Ends refs name) → ∀ name ∈ done', Ends refs name)
  | .error cycle => IsCycle refs cycle

theorem visited_foldlM {step : List String → String → Except (List String) (List String)}
    {names : List String} (h : ∀ name ∈ names, ∀ done, Visited refs done [name] (step done name))
    (done : List String) : Visited refs done names (names.foldlM step done) := by
  induction names generalizing done with
  | nil => exact ⟨fun _ h => h, fun _ h => absurd h List.not_mem_nil, fun h => h⟩
  | cons name names ih =>
    obtain ⟨hname, hnames⟩ := List.forall_mem_cons.1 h
    have hstep := hname done
    rw [List.foldlM_cons]
    cases hfirst : step done name with
    | error cycle =>
      rw [hfirst] at hstep
      exact hstep
    | ok between =>
      rw [hfirst] at hstep
      obtain ⟨hmore, hmem, hends⟩ := hstep
      have hrest := ih hnames between
      change Visited refs done (name :: names) (names.foldlM step between)
      cases hlast : names.foldlM step between with
      | error cycle =>
        rw [hlast] at hrest
        exact hrest
      | ok done' =>
        rw [hlast] at hrest
        obtain ⟨hmore', hmem', hends'⟩ := hrest
        have hname' : name ∈ done' := hmore' name (hmem name (List.mem_singleton_self name))
        exact ⟨fun other hother => hmore' other (hmore other hother),
          List.forall_mem_cons.2 ⟨hname', hmem'⟩, fun hdone => hends' (hends hdone)⟩

/-- A visit, with a trail of declared names that leads to the message.  The trail
has no name twice, so that it and the fuel together stay above the number of
declared names. -/
theorem visit_spec {declared : List String} (hdeclared : ∀ name, refs name ≠ [] → name ∈ declared)
    (fuel : Nat) {trail : List String} {name : String} (hnodup : trail.Nodup)
    (hsub : ∀ name ∈ trail, name ∈ declared) (hfuel : declared.length < trail.length + fuel)
    (hchain : (trail ++ [name]).IsChain (Refers refs)) (done : List String) :
    Visited refs done [name] (visit refs fuel trail done name) := by
  induction fuel generalizing trail name done with
  | zero =>
    have hshort := (List.subperm_of_subset hnodup hsub).length_le
    omega
  | succ fuel ih =>
    rw [visit]
    split
    · rename_i hdone
      exact ⟨fun _ h => h, List.forall_mem_singleton.2 (List.contains_iff_mem.1 hdone), fun h => h⟩
    · split
      · rename_i htrail
        exact isCycle_of_mem_trail hnodup hchain (List.contains_iff_mem.1 htrail)
      · rename_i htrail
        have hfresh : name ∉ trail := fun hmem => htrail (List.contains_iff_mem.2 hmem)
        have hstep : ∀ other ∈ refs name, ∀ done,
            Visited refs done [other] (visit refs fuel (trail ++ [name]) done other) := by
          intro other hother done
          have hname : name ∈ declared := hdeclared name (List.ne_nil_of_mem hother)
          refine ih ?_ ?_ ?_ ?_ done
          · rw [← List.concat_eq_append]
            exact hnodup.concat hfresh
          · exact List.forall_mem_append.2 ⟨hsub, List.forall_mem_singleton.2 hname⟩
          · rw [List.length_append, List.length_singleton]
            omega
          · rw [List.append_assoc, List.singleton_append]
            exact List.isChain_split.2 ⟨hchain, List.isChain_pair.2 hother⟩
        have hvisited := visited_foldlM hstep done
        cases hfold : (refs name).foldlM (visit refs fuel (trail ++ [name])) done with
        | error cycle =>
          rw [hfold] at hvisited
          exact hvisited
        | ok done' =>
          rw [hfold] at hvisited
          obtain ⟨hmore, hmem, hends⟩ := hvisited
          refine ⟨fun other hother => List.mem_cons_of_mem _ (hmore other hother),
            List.forall_mem_singleton.2 List.mem_cons_self, fun hdone => ?_⟩
          have hall := hends hdone
          exact List.forall_mem_cons.2 ⟨⟨name, fun other hother => hall other (hmem other hother)⟩,
            hall⟩

/-! ## The whole search -/

theorem find?_eq_some_iff_of_nodup {α : Type} {key : α → String} {items : List α}
    (h : (items.map key).Nodup) {name : String} {a : α} :
    items.find? (fun a => key a = name) = some a ↔ a ∈ items ∧ key a = name := by
  constructor
  · intro ha
    exact ⟨List.mem_of_find?_eq_some ha, by simpa using List.find?_some ha⟩
  · rintro ⟨ha, rfl⟩
    have hsome : (items.find? fun b => key b = key a).isSome := by
      rw [List.find?_isSome]
      exact ⟨a, ha, decide_eq_true rfl⟩
    obtain ⟨b, hb⟩ := Option.isSome_iff_exists.1 hsome
    have hkey : key b = key a := by simpa using List.find?_some hb
    rw [hb, List.inj_on_of_nodup_map h (List.mem_of_find?_eq_some hb) ha hkey]

variable {messages : List MessageDecl}

theorem mem_references_iff (h : (messages.map MessageDecl.name).Nodup) {name other : String} :
    other ∈ references messages name ↔ ∃ m ∈ messages, m.name = name ∧ other ∈ m.references := by
  rw [references]
  constructor
  · intro hother
    cases hfind : messages.find? fun m => m.name = name with
    | none => simp [hfind] at hother
    | some m =>
      obtain ⟨hm, hname⟩ := (find?_eq_some_iff_of_nodup h).1 hfind
      rw [hfind] at hother
      exact ⟨m, hm, hname, hother⟩
  · rintro ⟨m, hm, hname, hother⟩
    rw [(find?_eq_some_iff_of_nodup h).2 ⟨hm, hname⟩]
    exact hother

theorem mem_names_of_references_ne_nil {name : String} (h : references messages name ≠ []) :
    name ∈ messages.map MessageDecl.name := by
  cases hfind : messages.find? fun m => m.name = name with
  | none => simp [references, hfind] at h
  | some m =>
    have hname : m.name = name := by simpa using List.find?_some hfind
    exact hname ▸ List.mem_map_of_mem (List.mem_of_find?_eq_some hfind)

/-- The visits of all messages, in declaration order. -/
def visitAll (messages : List MessageDecl) : Except (List String) (List String) :=
  (messages.map MessageDecl.name).foldlM (visit (references messages) (messages.length + 1) []) []

theorem cycle?_eq_some_iff {names : List String} :
    cycle? messages = some names ↔ visitAll messages = .error names := by
  have hcycle : cycle? messages =
      match visitAll messages with
      | .ok _ => none
      | .error names => some names := rfl
  rw [hcycle]
  cases visitAll messages <;> simp

theorem visited_visitAll (messages : List MessageDecl) :
    Visited (references messages) [] (messages.map MessageDecl.name) (visitAll messages) := by
  refine visited_foldlM (fun name _ done => ?_) []
  exact visit_spec (fun _ => mem_names_of_references_ne_nil) _ List.nodup_nil
    (fun _ h => absurd h List.not_mem_nil) (by simp) (List.isChain_singleton name) done

theorem cycle?_spec (messages : List MessageDecl) :
    (∃ names, cycle? messages = some names ∧ IsCycle (references messages) names) ∨
      cycle? messages = none ∧ ∀ name, Ends (references messages) name := by
  have hvisited := visited_visitAll messages
  cases hvisit : visitAll messages with
  | error names =>
    rw [hvisit] at hvisited
    exact Or.inl ⟨names, cycle?_eq_some_iff.2 hvisit, hvisited⟩
  | ok done =>
    rw [hvisit] at hvisited
    obtain ⟨-, hmem, hends⟩ := hvisited
    have hnone : cycle? messages = none := by
      refine Option.eq_none_iff_forall_ne_some.2 fun names hnames => ?_
      cases hvisit.symm.trans (cycle?_eq_some_iff.1 hnames)
    refine Or.inr ⟨hnone, fun name => ?_⟩
    by_cases hname : references messages name = []
    · exact ⟨name, fun other hother => absurd (hname ▸ hother) List.not_mem_nil⟩
    · exact hends (fun _ h => absurd h List.not_mem_nil) name
        (hmem name (mem_names_of_references_ne_nil hname))

/-- The search reports nothing exactly when no message leads back to itself. -/
theorem cycle?_eq_none_iff :
    cycle? messages = none ↔ ∀ name, ¬ TransGen (Refers (references messages)) name name := by
  rcases cycle?_spec messages with ⟨names, hcycle, hnames⟩ | ⟨hcycle, hends⟩
  · obtain ⟨name, hname⟩ := hnames.transGen
    rw [hcycle]
    exact ⟨nofun, fun h => absurd hname (h name)⟩
  · exact ⟨fun _ name => (hends name).not_transGen, fun _ => hcycle⟩

theorem length_le_of_isChain (hacyclic : cycle? messages = none) {names : List String}
    (hchain : names.IsChain (Refers (references messages)))
    (hdeclared : ∀ name ∈ names, name ∈ messages.map MessageDecl.name) :
    names.length ≤ messages.length := by
  have hnodup := nodup_of_isChain (cycle?_eq_none_iff.1 hacyclic) hchain
  simpa using (List.subperm_of_subset hnodup hdeclared).length_le

end LayeredConfig.Schema
