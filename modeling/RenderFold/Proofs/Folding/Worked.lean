import RenderFold.Proofs.Folding.FollowedLevels
import RenderFold.Proofs.Folding.Spread

/-!
# Work Within a Zone

While the pairs of a frame are treated, the program is edited below their
expressions and nowhere else. The zone of the work is what is below these
expressions, so it is known before the work begins. Whatever has nothing in
the zone below it is afterwards what it was before, and so is what is known
about it.

## Main definitions

* `Arena.Beneath`: What is below some indices.
* `Arena.Outside`: Nothing below an index is in a zone.
* `Program.Works`: Programs that differ by work within a zone.

## Theorems

* `Program.Works.trans`, `Program.Works.widen`: Work after work, and in a zone
  around a zone.
* `Program.correlate_works`, `Program.foldLevel_works`, `Program.graft_works`:
  What a walk does.
-/

namespace RenderFold

open Script (Arena Id)

namespace Script.Arena

variable {arena a b : Arena} {zone wider : Set Id} {id x : Id} {ids ids' : List Id}
  {path : List Nat}

/-- What is below some indices. -/
def Beneath (arena : Arena) (ids : List Id) : Set Id :=
  {x | ∃ id ∈ ids, ∃ path, arena.Path id path x}

/-- Everything below an index is a node, and nothing of it is in a zone. -/
def Outside (arena : Arena) (zone : Set Id) (id : Id) : Prop :=
  ∀ path x, arena.Path id path x → x < arena.size ∧ x ∉ zone

theorem mem_beneath (hid : id ∈ ids) : id ∈ arena.Beneath ids := ⟨id, hid, [], .here⟩

theorem beneath_mono (hsub : ids ⊆ ids') : arena.Beneath ids ⊆ arena.Beneath ids' :=
  fun _ ⟨id, hid, hpath⟩ => ⟨id, hsub hid, hpath⟩

/-- No path leaves what is below the roots of a forest. -/
theorem Forest.beneath_closed (h : Forest zone arena ids) : Closed arena (arena.Beneath ids) := by
  rintro x ⟨id, hid, path, hpath⟩
  refine ⟨(h.isTree hid).lt_size path x hpath, fun part hpart => ?_⟩
  obtain ⟨place, hplace⟩ := List.getElem?_of_mem hpart
  exact ⟨id, hid, _, hpath.snoc hplace⟩

/-- Whatever is in a span is in every zone that its roots are in. -/
theorem Spans.mem_zone {span : List Id} (h : Spans arena ids span) (hclosed : Closed arena zone)
    (hids : ∀ id ∈ ids, id ∈ zone) : ∀ x ∈ span, x ∈ zone := by
  induction h with
  | nil => exact fun x hx => absurd hx List.not_mem_nil
  | cons hlt hbelow hrest ihbelow ihrest =>
      obtain ⟨hid, hids⟩ := List.forall_mem_cons.mp hids
      intro x hx
      simp only [List.cons_append, List.mem_cons, List.mem_append] at hx
      rcases hx with rfl | hx | hx
      · exact hid
      · exact ihbelow (hclosed _ hid).2 x hx
      · exact ihrest hids x hx

namespace Forest

/-- A forest stands in every zone that its roots are in. -/
theorem within (h : Forest wider arena ids) (hclosed : Closed arena zone)
    (hids : ∀ id ∈ ids, id ∈ zone) : Forest zone arena ids := by
  obtain ⟨span, hspan, hnodup, -⟩ := h
  exact ⟨span, hspan, hnodup, hspan.mem_zone hclosed hids⟩

/-- Forests in zones that have nothing in common. -/
theorem union (h : Forest zone arena ids) (h' : Forest wider arena ids')
    (hout : ∀ x ∈ zone, x ∉ wider) : Forest Set.univ arena (ids ++ ids') := by
  obtain ⟨span, hspan, hnodup, hmem⟩ := h
  obtain ⟨span', hspan', hnodup', hmem'⟩ := h'
  exact ⟨span ++ span', hspan.append hspan', List.nodup_append'.mpr ⟨hnodup, hnodup',
    fun x hx hx' => hout x (hmem x hx) (hmem' x hx')⟩, fun _ _ => trivial⟩

end Forest

namespace Outside

theorem of_disjoint (h : Closed arena wider) (hid : id ∈ wider) (hout : ∀ x ∈ wider, x ∉ zone) :
    arena.Outside zone id := fun _ x hpath =>
  have hx := h.path_mem hid hpath
  ⟨(h x hx).1, hout x hx⟩

/-- A root of a forest is outside of what is below the others. -/
theorem of_forest (h : Forest wider arena (ids ++ ids')) (hid : id ∈ ids) :
    arena.Outside (arena.Beneath ids') id := fun path x hpath =>
  ⟨(h.isTree (List.mem_append_left _ hid)).lt_size path x hpath,
    fun ⟨_, hother, _, hway⟩ => h.apart hid hother hpath hway⟩

theorem get (h : a.Outside zone id) (hedit : EditedIn zone a b) :
    ∀ path x, a.Path id path x → b.get x = a.get x := fun path x hpath =>
  hedit.same x (h path x hpath).1 (h path x hpath).2

/-- What is below an index outside of a zone is still there when the zone has
    been edited, and nothing else is. -/
theorem later (h : a.Outside zone id) (hedit : EditedIn zone a b) :
    b.Outside (zone ∪ added a b) id := by
  intro path x hpath
  obtain ⟨hlt, hout⟩ := h path x (hpath.back fun path x hway =>
    congrArg Node.children (h.get hedit path x hway))
  exact ⟨hlt.trans_le hedit.size_le, fun hin => hin.elim hout fun hnew =>
    Nat.not_lt_of_le hnew.1 hlt⟩

end Outside

end Script.Arena

open Script.Arena (Closed Forest KeepsForests added)

/-- Nothing is known about indices beyond the bound. -/
theorem Findings.Bounded.get?_eq_none {size : Nat} {findings : Findings} {id : Id}
    (h : findings.Bounded size) (hid : size ≤ id) : findings.get? id = none := by
  induction findings with
  | nil => rfl
  | cons entry rest ih =>
      obtain ⟨⟨hlt, -⟩, hrest⟩ := List.forall_mem_cons.mp h
      have hne : entry.1 ≠ id := fun heq => Nat.not_lt_of_le hid (heq ▸ hlt)
      rw [get?, if_neg hne]
      exact ih hrest

namespace Program

variable {program a b c : Program} {zone wider : Set Id} {slot x : Id} {slots : List Id}

/-- Programs that differ by work within a zone: the arena was edited there, every
    forest still is one, and nothing was found out about anything else that was
    there before. -/
structure Works (zone : Set Id) (a b : Program) : Prop
    extends Tends zone a b, EditedIn zone a b where
  forests : KeepsForests a.arena b.arena

namespace Works

theorem refl (hclosed : Closed program.arena zone) : Works zone program program where
  toTends := .edit hclosed (.refl hclosed) (.refl _)
  forests := .refl _
  findings _ _ _ := rfl

theorem trans (hab : Works zone a b) (hbc : Works (zone ∪ added a.arena b.arena) b c) :
    Works zone a c where
  toTends := hab.toTends.trans hbc.toTends
  forests := hab.forests.trans hbc.forests
  findings x hlt hout := (hbc.findings x (hlt.trans_le hab.arena.size_le) fun hin =>
    hin.elim hout fun hnew => Nat.not_lt_of_le hnew.1 hlt).trans (hab.findings x hlt hout)

/-- Work in a zone is work in every zone around it. -/
theorem widen (h : Works zone a b) (hsub : zone ⊆ wider) (hclosed : Closed a.arena wider) :
    Works wider a b where
  arena := h.arena.widen hsub hclosed
  unmatched := h.unmatched
  function := h.function
  planted := h.planted
  forests := h.forests
  findings x hlt hout := h.findings x hlt fun hin => hout (hsub hin)

/-- Finding something out about an expression, but not a function. -/
theorem update (hclosed : Closed program.arena zone) (hslot : slot ∈ zone)
    {change : Finding → Finding}
    (hunmatched : ∀ finding, finding.isUnmatched = true → (change finding).isUnmatched = true)
    (hfunction : ∀ finding, (change finding).function = finding.function) :
    Works zone program { program with findings := program.findings.update slot change } where
  toTends := .update hclosed hslot hunmatched hfunction
  forests := .refl _
  findings _ _ hout := Findings.get?_update_of_ne _ _ fun heq => hout (heq ▸ hslot)

theorem markStatic (hclosed : Closed program.arena zone) (hslot : slot ∈ zone) (text : String) :
    Works zone program (program.markStatic slot text) :=
  update hclosed hslot (fun _ h => h) fun _ => rfl

theorem setText (hclosed : Closed program.arena zone) (hslot : slot ∈ zone) (text : String) :
    Works zone program (program.setText slot text) :=
  update hclosed hslot (fun _ h => h) fun _ => rfl

theorem markUnmatched (hclosed : Closed program.arena zone) (hslot : slot ∈ zone) :
    Works zone program (program.markUnmatched slot) :=
  update hclosed hslot (fun _ _ => rfl) fun _ => rfl

/-- Editing the arena in a zone, so that every forest stays one. -/
theorem edit {arena : Arena} (hclosed : Closed program.arena zone)
    (hedit : Arena.EditedIn zone program.arena arena) (hkeeps : KeepsForests program.arena arena) :
    Works zone program { program with arena } where
  toTends := .edit hclosed hedit hkeeps
  forests := hkeeps
  findings _ _ _ := rfl

end Works

theorem foldToLiteral_works (hclosed : Closed program.arena zone) (hslot : slot ∈ zone)
    (text : String) : Works zone program (program.foldToLiteral slot text) := by
  have hedit := Works.edit hclosed (Script.Arena.becomeLiteral_editedIn hclosed hslot text)
    (Script.Arena.becomeLiteral_keepsForests program.arena slot text)
  exact hedit.trans (.markStatic hedit.arena.closed (Or.inl hslot) text)

theorem foldLevel_works (hclosed : Closed program.arena zone) (hslot : slot ∈ zone)
    (hslots : ∀ x ∈ slots, x ∈ zone) (hmatch : program.Matches slot slots) (closing : String) :
    Works zone program (program.foldLevel slot closing slots) where
  toTends := foldLevel_tends hclosed hslot hslots hmatch closing
  forests := foldLevel_keepsForests hmatch closing
  findings x _ hout := by
    cases hstatic : program.findings.isStatic slot with
    | true => rw [foldLevel, if_pos hstatic]
    | false =>
        rcases foldLevel_cases hstatic closing slots with ⟨opening, content, -, -, hfold⟩ | hsame
        · rw [hfold]
          exact Findings.get?_update_of_ne _ _ fun heq => hout (heq ▸ hslot)
        · rw [hsame]

theorem Adds.works (h : program.Adds slots a) (hclosed : Closed program.arena zone) :
    Works zone program a where
  toTends := h.tends hclosed
  forests := .of_sameParts (.of_extends h.keeps)
  findings _ _ _ := by rw [h.findings]

theorem correlate_works (hclosed : Closed program.arena zone)
    (hslot : Forest zone program.arena [slot]) (count : Nat) :
    Works zone program (program.correlate slot count).2 := by
  unfold correlate
  dsimp only
  split
  · exact .refl hclosed
  · have hmark := Works.markUnmatched hclosed (hslot.mem List.mem_cons_self).1
    exact hmark.trans ((pushHoles_adds count _).1.works hmark.arena.closed)

/-- The children of a node are the elements of the list in its call, or there is a
    new expression for each of them. -/
theorem correlate_cases (program : Program) (slot : Id) (count : Nat) :
    (∃ list elements, program.arena.childArray? slot = some list ∧
      program.arena.elements? list = some elements ∧
      (∀ element ∈ elements, program.arena.isNodeCall element = true) ∧
      program.correlate slot count = (elements, program)) ∨
    program.correlate slot count = pushHoles count (program.markUnmatched slot) := by
  unfold correlate
  dsimp only
  split
  · next elements hfound =>
      obtain ⟨hbind, hfits⟩ := Option.filter_eq_some_iff.mp hfound
      obtain ⟨list, hlist, helements⟩ := Option.bind_eq_some_iff.mp hbind
      obtain ⟨-, hnodes⟩ := Bool.and_eq_true_iff.mp hfits
      exact Or.inl ⟨list, elements, hlist, helements, List.all_eq_true.mp hnodes, rfl⟩
  · exact Or.inr rfl

/-- Nothing is known about the expressions of the children of a node if nothing was
    known about what is below the node, and the node is not one of them. -/
theorem correlate_fresh (hplanted : program.Planted)
    (hslot : Forest Set.univ program.arena [slot])
    (hfresh : ∀ x ∈ program.arena.Beneath [slot], x ≠ slot → program.findings.get? x = none)
    (count : Nat) :
    ∀ x ∈ (program.correlate slot count).2.arena.Beneath (program.correlate slot count).1,
      x ≠ slot ∧ (program.correlate slot count).2.findings.get? x = none := by
  have hlt := (hslot.mem List.mem_cons_self).2
  rcases program.correlate_cases slot count with ⟨list, elements, hlist, helements, -, heq⟩ | heq
  · rw [heq]
    rintro x ⟨element, helement, path, hpath⟩
    have hne : x ≠ slot := (elements_apart hslot hlist helements).path_mem helement hpath
    have hclosed := hslot.beneath_closed
    have hmem : list ∈ program.arena.Beneath [slot] :=
      (hclosed slot (Script.Arena.mem_beneath List.mem_cons_self)).2 list
        (Script.Arena.arguments_subset _ _ (Script.Arena.childArray?_mem_arguments hlist))
    have hparts := (hclosed list hmem).2
    rw [Script.Arena.get_of_elements? helements] at hparts
    exact ⟨hne, hfresh x (hclosed.path_mem (hparts element helement) hpath) hne⟩
  · obtain ⟨hadds, -⟩ := pushHoles_adds count (program.markUnmatched slot)
    obtain ⟨span, hspan, -, hle⟩ := hadds.grown
    rw [heq]
    rintro x ⟨element, helement, path, hpath⟩
    have hx : program.arena.size ≤ x := hle x (hspan.path_mem (hspan.subset helement) hpath)
    have hne : x ≠ slot := fun heq => Nat.not_lt_of_le hx (heq ▸ hlt)
    refine ⟨hne, ?_⟩
    rw [hadds.findings]
    exact (Findings.get?_update_of_ne _ _ hne).trans (hplanted.bounded.get?_eq_none hx)

theorem locateRoot_works {function : Id} (hclosed : Closed program.arena zone)
    (hfunction : function ∈ zone) : Works zone program (program.locateRoot function).2 := by
  unfold locateRoot
  split
  · exact .refl hclosed
  · have hmark := Works.markUnmatched hclosed hfunction
    exact hmark.trans ((pushHole_adds _).works hmark.arena.closed)

/-- The copy of a function is a tree of its own. -/
theorem graft_works (hclosed : Closed program.arena zone) (hslot : slot ∈ zone)
    (own : RenderFunction) :
    Works zone program
      ⟨(program.arena.graft own.arena own.root).2,
        program.findings.setFunction slot (program.arena.graft own.arena own.root).1⟩ where
  toTends := graft_tends hclosed hslot own
  forests := .of_sameParts (.of_extends (Script.Arena.graft_extends _ _ _))
  findings _ _ hout := Findings.get?_update_of_ne _ _ fun heq => hout (heq ▸ hslot)

end Program

end RenderFold
