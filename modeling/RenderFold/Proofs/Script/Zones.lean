import RenderFold.Script.Edit
import RenderFold.Proofs.Script.Spans
import Mathlib.Data.Set.Basic

/-!
# Zones

Where an edit takes place. A zone is a set of indices that no path leaves.
An edit that starts in a zone can only reach what is in the zone and what it
adds itself, so it leaves everything else as it is: the spans outside the
zone in particular. The nodes that were added belong to the zone from then
on, and to every zone around it.

All edits of a render function start at an expression and use that
expression, what is below it and new nodes. Each of them is followed here
once.

## Main definitions

* `Arena.Closed`: No path leaves the zone.
* `Arena.EditedIn`: Arenas that differ in a zone and by new nodes.

## Theorems

* `EditedIn.trans`, `EditedIn.widen`: Edits in sequence, and in a zone around
  a zone.
* `EditedIn.push`, `EditedIn.replace`: Adding and rewriting nodes.
* `EditedIn.spans`: Spans outside the zone stay.
* `becomeLiteral_editedIn`, `becomeFragment_editedIn`, `join_editedIn`,
  `setElements_editedIn`, `setProperty_editedIn`: The edits.
-/

namespace RenderFold

namespace Script

namespace Arena

variable {arena a b c : Arena} {zone wider : Set Id} {id : Id}

/-- All indices of the zone lead to a node, and no path leaves the zone. -/
def Closed (arena : Arena) (zone : Set Id) : Prop :=
  ∀ id ∈ zone, id < arena.size ∧ ∀ part ∈ (arena.get id).children, part ∈ zone

/-- The indices that an arena has and another does not. -/
def added (a b : Arena) : Set Id := {id | a.size ≤ id ∧ id < b.size}

/-- An arena that differs from another inside a zone and by new nodes, and in
    which no path leaves the zone and the new nodes. -/
structure EditedIn (zone : Set Id) (a b : Arena) : Prop where
  size_le : a.size ≤ b.size
  same : ∀ id, id < a.size → id ∉ zone → b.get id = a.get id
  closed : Closed b (zone ∪ added a b)

theorem added_self (a : Arena) : added a a = ∅ := by
  ext id
  simp only [added, Set.mem_ofPred_eq, Set.mem_empty_iff_false, iff_false, not_and]
  exact Nat.not_lt_of_le

namespace EditedIn

theorem refl (h : Closed a zone) : EditedIn zone a a := by
  refine ⟨Nat.le_refl _, fun _ _ _ => rfl, ?_⟩
  rwa [added_self, Set.union_empty]

theorem added_trans (hab : a.size ≤ b.size) (hbc : b.size ≤ c.size) :
    added a b ∪ added b c = added a c := by
  ext id
  simp only [added, Set.mem_union, Set.mem_ofPred_eq]
  constructor
  · rintro (⟨hle, hlt⟩ | ⟨hle, hlt⟩)
    · exact ⟨hle, Nat.lt_of_lt_of_le hlt hbc⟩
    · exact ⟨Nat.le_trans hab hle, hlt⟩
  · rintro ⟨hle, hlt⟩
    by_cases hid : id < b.size
    · exact Or.inl ⟨hle, hid⟩
    · exact Or.inr ⟨Nat.le_of_not_lt hid, hlt⟩

theorem trans (hab : EditedIn zone a b) (hbc : EditedIn (zone ∪ added a b) b c) :
    EditedIn zone a c := by
  refine ⟨Nat.le_trans hab.size_le hbc.size_le, fun id hid hzone => ?_, ?_⟩
  · rw [hbc.same id (Nat.lt_of_lt_of_le hid hab.size_le), hab.same id hid hzone]
    rintro (hin | hin)
    · exact hzone hin
    · exact absurd hid (Nat.not_lt_of_le hin.1)
  · have hclosed := hbc.closed
    rwa [Set.union_assoc, added_trans hab.size_le hbc.size_le] at hclosed

/-- An edit in a zone is one in every zone around it. -/
theorem widen (h : EditedIn zone a b) (hsub : zone ⊆ wider) (hwider : Closed a wider) :
    EditedIn wider a b := by
  refine ⟨h.size_le, fun id hid hout => h.same id hid fun hin => hout (hsub hin), ?_⟩
  intro id hid
  by_cases hin : id ∈ zone ∪ added a b
  · refine ⟨(h.closed id hin).1, fun part hpart => ?_⟩
    rcases (h.closed id hin).2 part hpart with hpart | hpart
    · exact Or.inl (hsub hpart)
    · exact Or.inr hpart
  · -- A node of the outer zone that was not touched.
    rw [Set.mem_union, not_or] at hin
    have hid' : id ∈ wider := hid.resolve_right hin.2
    obtain ⟨hlt, hparts⟩ := hwider id hid'
    refine ⟨Nat.lt_of_lt_of_le hlt h.size_le, fun part hpart => Or.inl ?_⟩
    rw [h.same id hlt hin.1] at hpart
    exact hparts part hpart

theorem push (hclosed : Closed a zone) {node : Node Id} (hnode : ∀ x ∈ node.children, x ∈ zone) :
    EditedIn zone a (a.push node).2 := by
  have hext := Extends.push a node
  refine ⟨hext.1, fun id hid _ => hext.2 id hid, ?_⟩
  rintro id (hid | ⟨hle, hlt⟩)
  · obtain ⟨hlt, hparts⟩ := hclosed id hid
    refine ⟨Nat.lt_of_lt_of_le hlt hext.1, fun part hpart => Or.inl ?_⟩
    rw [hext.2 id hlt] at hpart
    exact hparts part hpart
  -- The only index that was added is that of the new node.
  · have hid : id = (a.push node).1 := by
      rw [size_push] at hlt
      exact Nat.le_antisymm (Nat.le_of_lt_succ hlt) hle
    refine ⟨hlt, fun part hpart => Or.inl (hnode part ?_)⟩
    rwa [hid, get_push_self] at hpart

/-- What was added so far stays with the zone when more is added. -/
theorem mem_later {x : Id} (h : x ∈ zone ∪ added a b) (hle : b.size ≤ c.size) :
    x ∈ zone ∪ added a c :=
  h.imp id fun hx => ⟨hx.1, Nat.lt_of_lt_of_le hx.2 hle⟩

/-- What is added after other additions is added. -/
theorem mem_earlier {x : Id} (h : x ∈ zone ∪ added b c) (hle : a.size ≤ b.size) :
    x ∈ zone ∪ added a c :=
  h.imp id fun hx => ⟨Nat.le_trans hle hx.1, hx.2⟩

theorem push_mem (zone : Set Id) (a : Arena) (node : Node Id) :
    (a.push node).1 ∈ zone ∪ added a (a.push node).2 := by
  refine Or.inr ⟨Nat.le_refl _, ?_⟩
  rw [size_push]
  exact Nat.lt_succ_self _

theorem replace (hclosed : Closed a zone) {node : Node Id} (hid : id ∈ zone)
    (hnode : ∀ x ∈ node.children, x ∈ zone) : EditedIn zone a (a.replace id node) := by
  have hsize := size_replace a id node
  refine ⟨Nat.le_of_eq hsize.symm, fun other _ hother => ?_, ?_⟩
  · exact get_replace_of_ne a node fun heq => hother (heq ▸ hid)
  rintro other (hother | ⟨hle, hlt⟩)
  · obtain ⟨hlt, hparts⟩ := hclosed other hother
    refine ⟨hsize.symm ▸ hlt, fun part hpart => Or.inl ?_⟩
    by_cases heq : other = id
    · subst heq
      rw [get_replace_self hlt] at hpart
      exact hnode part hpart
    · rw [get_replace_of_ne a node heq] at hpart
      exact hparts part hpart
  · rw [hsize] at hlt
    exact absurd hlt (Nat.not_lt_of_le hle)

/-- Spans outside the zone stay. -/
theorem spans (h : EditedIn zone a b) {ids span : List Id} (hspans : Spans a ids span)
    (hout : ∀ x ∈ span, x ∉ zone) : Spans b ids span :=
  hspans.transport h.size_le fun x hx => h.same x (hspans.lt_size x hx) (hout x hx)

end EditedIn

section Edits

variable {slot left right argument call array : Id} {arguments elements children : List Id}

/-- The arguments of a call are below it. -/
theorem arguments_mem (hclosed : Closed arena zone) (hid : id ∈ zone) :
    ∀ x ∈ arena.arguments id, x ∈ zone := by
  intro x hx
  unfold arguments at hx
  split at hx
  · next callee arguments h =>
      refine (hclosed id hid).2 x ?_
      rw [h]
      exact List.mem_cons_of_mem _ hx
  · exact absurd hx List.not_mem_nil

/-- What can be reached from within a zone is within it. -/
theorem reachableFrom_mem (hclosed : Closed arena zone) (fuel : Nat) :
    ∀ {seen stack : List Id}, (∀ x ∈ seen, x ∈ zone) → (∀ x ∈ stack, x ∈ zone) →
      ∀ x ∈ arena.reachableFrom fuel seen stack, x ∈ zone := by
  -- Both lists stay in the zone, as only parts of what is in it are put on the
  -- stack.
  induction fuel with
  | zero => exact fun hseen _ => hseen
  | succ fuel ih =>
      intro seen stack hseen hstack
      cases stack with
      | nil => exact hseen
      | cons id stack =>
          have hid : id ∈ zone := hstack id List.mem_cons_self
          have hrest : ∀ x ∈ stack, x ∈ zone := fun x hx => hstack x (List.mem_cons_of_mem _ hx)
          simp only [reachableFrom]
          split
          · exact ih hseen hrest
          · refine ih (fun x hx => ?_) fun x hx => ?_
            · rcases List.mem_cons.mp hx with rfl | hx
              · exact hid
              · exact hseen x hx
            · rcases List.mem_append.mp hx with hx | hx
              · exact (hclosed id hid).2 x (List.mem_reverse.mp hx)
              · exact hrest x hx

theorem reachable_mem (hclosed : Closed arena zone) (hid : id ∈ zone) :
    ∀ x ∈ arena.reachable id, x ∈ zone :=
  reachableFrom_mem hclosed _ (fun _ hx => absurd hx List.not_mem_nil) fun _ hx =>
    List.mem_singleton.mp hx ▸ hid

theorem childArray?_mem_arguments (h : arena.childArray? id = some array) :
    array ∈ arena.arguments id := by
  unfold childArray? at h
  obtain ⟨helper, _, h⟩ := Option.bind_eq_some_iff.mp h
  have hmem := List.mem_of_find?_eq_some h
  obtain ⟨place, _, hplace⟩ := List.mem_filterMap.mp hmem
  exact List.mem_of_getElem? hplace

theorem textArgument?_mem_arguments (h : arena.textArgument? id = some argument) :
    argument ∈ arena.arguments id := by
  unfold textArgument? at h
  split at h
  · exact List.mem_of_mem_head? h
  · cases h

theorem becomeCall_editedIn (hclosed : Closed arena zone) (hid : id ∈ zone)
    (harguments : ∀ x ∈ arguments, x ∈ zone) (helper : Helper) :
    EditedIn zone arena (arena.becomeCall id helper arguments) := by
  have hpush : EditedIn zone arena (arena.push (.ident helper.name)).2 :=
    .push hclosed fun _ hx => absurd hx List.not_mem_nil
  refine hpush.trans (.replace hpush.closed (Or.inl hid) fun x hx => ?_)
  rcases List.mem_cons.mp hx with rfl | hx
  · exact EditedIn.push_mem ..
  · exact Or.inl (harguments x hx)

theorem becomeText_editedIn (hclosed : Closed arena zone) (hid : id ∈ zone)
    (hargument : argument ∈ zone) : EditedIn zone arena (arena.becomeText id argument) :=
  becomeCall_editedIn hclosed hid (fun _ hx => List.mem_singleton.mp hx ▸ hargument) _

/-- A node without parts can be added anywhere. -/
theorem pushLeaf_editedIn (hclosed : Closed arena zone) {node : Node Id}
    (hnode : node.children = []) : EditedIn zone arena (arena.push node).2 :=
  .push hclosed fun _ hx => absurd (hnode ▸ hx) List.not_mem_nil

theorem becomeLiteral_editedIn (hclosed : Closed arena zone) (hid : id ∈ zone) (text : String) :
    EditedIn zone arena (arena.becomeLiteral id text) := by
  have hpush : EditedIn zone arena (arena.push (.str text)).2 := pushLeaf_editedIn hclosed rfl
  exact hpush.trans
    (becomeText_editedIn hpush.closed (Or.inl hid) (EditedIn.push_mem zone arena _))

theorem becomeFragment_editedIn (hclosed : Closed arena zone) (hid : id ∈ zone)
    (hchildren : ∀ x ∈ children, x ∈ zone) (opening closing : String) :
    EditedIn zone arena (arena.becomeFragment id opening closing children) := by
  set a₁ := (arena.push (.str opening)).2 with ha₁
  set a₂ := (a₁.push (.str closing)).2 with ha₂
  set a₃ := (a₂.push (.array children)).2 with ha₃
  have h₁ : EditedIn zone arena a₁ := pushLeaf_editedIn hclosed rfl
  have h₂ : EditedIn zone arena a₂ := h₁.trans (pushLeaf_editedIn h₁.closed rfl)
  have h₃ : EditedIn zone arena a₃ :=
    h₂.trans (.push h₂.closed fun x hx => Or.inl (hchildren x hx))
  -- The three arguments are among the nodes that were added.
  have hle₂ : a₁.size ≤ a₃.size := Nat.le_trans (Extends.push _ _).1 (Extends.push _ _).1
  have hopening : (arena.push (.str opening)).1 ∈ zone ∪ added arena a₃ :=
    EditedIn.mem_later (EditedIn.push_mem zone arena _) hle₂
  have hclosing : (a₁.push (.str closing)).1 ∈ zone ∪ added arena a₃ :=
    EditedIn.mem_earlier (EditedIn.mem_later (EditedIn.push_mem zone a₁ _) (Extends.push _ _).1)
      h₁.size_le
  have harray : (a₂.push (.array children)).1 ∈ zone ∪ added arena a₃ :=
    EditedIn.mem_earlier (EditedIn.push_mem zone a₂ _) h₂.size_le
  refine h₃.trans (becomeCall_editedIn h₃.closed (Or.inl hid) (fun x hx => ?_) _)
  simp only [List.mem_cons, List.not_mem_nil, or_false] at hx
  rcases hx with rfl | rfl | rfl
  · exact hopening
  · exact hclosing
  · exact harray

theorem setElements_editedIn (hclosed : Closed arena zone) (hid : id ∈ zone)
    (helements : ∀ x ∈ elements, x ∈ zone) :
    EditedIn zone arena (arena.setElements id elements).2 := by
  unfold setElements
  split
  · exact .replace hclosed hid helements
  · exact .refl hclosed

theorem endLiteral?_mem (hclosed : Closed arena zone) {first : Bool} {target : Id} :
    ∀ {depth id}, id ∈ zone → arena.endLiteral? first depth id = some target → target ∈ zone
  | 0, _, _, h => by cases h
  | depth + 1, id, hid, h => by
      unfold endLiteral? at h
      split at h
      · next l r hget =>
          refine endLiteral?_mem hclosed ((hclosed id hid).2 _ ?_) h
          rw [hget]
          cases first <;> simp [Node.children]
      · cases h
        exact hid
      · cases h

theorem mapLiteral_editedIn (hclosed : Closed arena zone) (hid : id ∈ zone)
    (f : String → String) : EditedIn zone arena (arena.mapLiteral id f) := by
  unfold mapLiteral
  split
  · exact .replace hclosed hid fun _ hx => absurd hx List.not_mem_nil
  · exact .refl hclosed

/-- A concatenation is made of what was there and at most one new node. -/
theorem join_editedIn (hclosed : Closed arena zone) (hleft : left ∈ zone) (hright : right ∈ zone) :
    EditedIn zone arena (arena.join left right).2 ∧
      (arena.join left right).1 ∈ zone ∪ added arena (arena.join left right).2 := by
  have hsum : EditedIn zone arena (arena.push (.binary .add left right)).2 := by
    refine .push hclosed fun x hx => ?_
    simp only [Node.children, List.mem_cons, List.not_mem_nil, or_false] at hx
    rcases hx with rfl | rfl
    · exact hleft
    · exact hright
  unfold join
  split
  · exact ⟨pushLeaf_editedIn hclosed rfl, EditedIn.push_mem ..⟩
  · split
    -- A literal on the left is taken into the one that the right side begins with.
    · next htarget =>
        exact ⟨mapLiteral_editedIn hclosed (endLiteral?_mem hclosed hright htarget) _,
          Or.inl hright⟩
    · exact ⟨hsum, EditedIn.push_mem ..⟩
  · split
    -- And the other way round.
    · next htarget =>
        exact ⟨mapLiteral_editedIn hclosed (endLiteral?_mem hclosed hleft htarget) _,
          Or.inl hleft⟩
    · exact ⟨hsum, EditedIn.push_mem ..⟩
  · exact ⟨hsum, EditedIn.push_mem ..⟩

theorem insertData_editedIn (hclosed : Closed arena zone) (hcall : call ∈ zone) {value : Id}
    (hvalue : value ∈ zone) (key : String) :
    EditedIn zone arena (arena.insertData call key value).2 := by
  have hpush : EditedIn zone arena (arena.push (.object [(key, value)])).2 := by
    refine .push hclosed fun x hx => ?_
    rcases List.mem_singleton.mp hx with rfl
    exact hvalue
  have hlt : call ≠ arena.size := Nat.ne_of_lt (hclosed call hcall).1
  unfold insertData
  split
  rename_i data pushed heq
  cases heq
  split
  · next callee tag rest hget =>
      refine hpush.trans (.replace hpush.closed (Or.inl hcall) fun x hx => ?_)
      -- The object is new, and so the call is what it was before.
      have hget := (get_push_of_ne arena _ hlt).symm.trans hget
      have hparts := (hclosed call hcall).2
      rw [hget] at hparts
      simp only [Node.children, List.mem_cons] at hx hparts
      rcases hx with rfl | rfl | rfl | hx
      · exact Or.inl (hparts _ (Or.inl rfl))
      · exact Or.inl (hparts _ (Or.inr (Or.inl rfl)))
      · exact EditedIn.push_mem ..
      · exact Or.inl (hparts _ (Or.inr (Or.inr hx)))
  · exact hpush
  · exact hpush

theorem mem_insert_fields {properties : Fields Id} {key : String} {value x : Id}
    (hx : x ∈ (Fields.insert properties key value).map (·.2)) :
    x = value ∨ x ∈ properties.map (·.2) := by
  obtain ⟨entry, hentry, rfl⟩ := List.mem_map.mp hx
  rcases Fields.mem_of_mem_insert hentry with rfl | hentry
  · exact Or.inl rfl
  · exact Or.inr (List.mem_map_of_mem hentry)

theorem setProperty_editedIn (hclosed : Closed arena zone) (hcall : call ∈ zone) {value : Id}
    (hvalue : value ∈ zone) (key : String) :
    EditedIn zone arena (arena.setProperty call key value).2 := by
  unfold setProperty
  split
  · split
    · exact insertData_editedIn hclosed hcall hvalue key
    · next argument harg =>
        have hargument : argument ∈ zone :=
          arguments_mem hclosed hcall argument (List.mem_of_getElem? harg)
        split
        · next properties hget =>
            refine .replace hclosed hargument fun x hx => ?_
            rcases mem_insert_fields hx with rfl | hx
            · exact hvalue
            · refine (hclosed argument hargument).2 x ?_
              rw [hget]
              exact hx
        · exact insertData_editedIn hclosed hcall hvalue key
        · exact .refl hclosed
  · exact .refl hclosed

end Edits

end Arena

end Script

end RenderFold
