import RenderFold.Proofs.Folding.CarriedLevels
import RenderFold.Proofs.Folding.Worked

/-!
# Calls Around Work

A call whose children are written out gives a node with as many children, each
of them given by its own expression. Work below these expressions leaves the
rest of the call as it is.

## Theorems

* `Scene.Locates.suited`: What such a call is evaluated among.
* `Scene.Locates.children`: The children are given by their expressions.
* `Program.Listed.later`: The call after work below its children.
-/

namespace RenderFold

open Script (Arena Id Tree)
open Script.Arena (Forest Outside added)

variable {scene : Scene} {depth : Nat} {raw : Bool} {arena after : Arena} {slot list : Id}
  {helper : Helper} {elements before back : List Id} {view : View}

/-- Data that is written out evaluates to data. -/
theorem Evaluator.isData_of_written {setting : Setting} {env : Env} {t : Tree} {start stop : Nat}
    {datum : Datum} (ht : (∃ properties, t = .mk (.object properties)) ∨ t = .mk .null)
    (h : Evaluator.eval setting depth env t start = .ok (datum, stop)) : datum.isData = true := by
  cases depth with
  | zero => cases h
  | succ depth =>
      rcases ht with ⟨properties, rfl⟩ | rfl
      · obtain ⟨fields, between, -, hdatum⟩ := Eval.bind_eq_ok h
        obtain ⟨rfl, -⟩ := Eval.pure_eq_ok hdatum
        rfl
      · obtain ⟨rfl, -⟩ := Eval.pure_eq_ok h
        rfl

/-- The list that holds the children is the second argument, if that is a list. -/
theorem childArray?_of_second {second : Id} (hhelper : arena.helper? slot = some .element)
    (hsecond : (arena.arguments slot)[1]? = some second)
    (hitems : (arena.elements? second).isSome = true) : arena.childArray? slot = some second := by
  unfold Arena.childArray?
  rw [hhelper]
  simp only [Option.bind_eq_bind, Option.bind_some, Arena.childPlaces, List.filterMap_cons, hsecond,
    List.find?_cons, hitems]

/-- What a call that gives a node is evaluated among. -/
theorem Scene.Locates.suited (h : scene.Locates depth raw (arena.tree slot) view)
    (htree : arena.IsTree slot) (hlist : arena.childArray? slot = some list) :
    Program.Suited arena slot list scene.setting scene.env depth scene.start := by
  refine ⟨h.older, h.names, fun hhelper second given hsecond hne ⟨start, stop, heval⟩ => ?_⟩
  obtain ⟨hsome, ⟨hother, -⟩ | ⟨-, second', hsecond', rfl | ⟨-, hthird⟩⟩⟩ :=
    Script.Arena.place_of_childArray? hlist
  · cases hhelper.symm.trans hother
  · exact absurd (Option.some.inj (hsecond.symm.trans hsecond')) hne
  · obtain ⟨elements, hitems⟩ := Option.isSome_iff_exists.mp hsome
    have hpart : ∀ {i x}, (arena.arguments slot)[i]? = some x → arena.IsTree x := fun hx =>
      htree.part (Script.Arena.arguments_subset arena slot (List.mem_of_getElem? hx))
    obtain ⟨tag, rest, harguments⟩ : ∃ tag rest,
        arena.arguments slot = tag :: second :: list :: rest := by
      match harguments : arena.arguments slot, hsecond, hthird with
      | tag :: second :: third :: rest, rfl, rfl => exact ⟨tag, rest, rfl⟩
    have hcall := h.data
    rw [htree.tree_call hhelper, harguments] at hcall
    have hwhole : arena.tree list = .mk (.array (elements.map arena.tree)) := by
      rw [(hpart hthird).tree_eq, Script.Arena.get_of_elements? hitems]
      rfl
    rcases hcall.here (arena.tree tag) (arena.tree second) (elements.map arena.tree)
        (rest.map arena.tree) (by rw [← hwhole]; rfl) with hobject | hnull | ⟨items, harray⟩
    · exact Evaluator.isData_of_written (.inl hobject) heval
    · exact Evaluator.isData_of_written (.inr hnull) heval
    · -- A list in the second place would be found first.
      have hsome : (arena.elements? second).isSome = true := by
        rw [(hpart hsecond).tree_eq] at harray
        unfold Arena.elements?
        cases hget : arena.get second <;> rw [hget] at harray <;> first | rfl | cases harray
      have hsame := (childArray?_of_second hhelper hsecond hsome).symm.trans hlist
      exact absurd (Option.some.inj hsame) hne

/-- A call that gives a node gives the children of the node by their own
    expressions, and the node again around others. -/
theorem Scene.Locates.children (h : scene.Locates depth raw (arena.tree slot) view)
    (hlisted : Program.Listed arena slot list elements)
    (hholds : arena.HoldsList slot list helper before back) (hencloses : view.encloses = true) :
    ∃ below, depth = below + 2 ∧
      List.Forall₂ (fun element child =>
        scene.Locates below view.holdsRaw (arena.tree element) child) elements view.children ∧
      Evaluator.Remakes scene.setting scene.env scene.start below
        (arena.callAround helper before back) view ∧
      ∀ x ∈ before ++ back, (arena.tree x).Printable := by
  have htree := hlisted.forest.isTree List.mem_cons_self
  have hsuited := h.suited htree hlisted.array
  have hcall := Program.tree_of_holdsList htree hholds hlisted.items
  obtain ⟨node, halways, -, hview⟩ := h.child
  obtain rfl : view = node := by
    cases node with
    | text content isRaw =>
        subst hview
        cases hencloses
    | _ => exact hview
  obtain ⟨_, stop, heval, ⟨serial, rfl⟩, -⟩ := halways scene.start (Nat.le_refl _)
  obtain ⟨below, hdepth, hchildren, hremakes⟩ := hlisted.eval hsuited hholds heval hencloses
  have hprintable := hcall ▸ h.printable
  have hdata := hcall ▸ h.data
  have hlist := hprintable.of_ofCall _ (List.mem_append_right _ List.mem_cons_self)
  refine ⟨below, hdepth, ?_, hremakes, fun x hx => hprintable.of_ofCall _ ?_⟩
  · refine List.forall₂_iff_get.mpr ⟨hchildren.length_eq, fun i hi hi' => ?_⟩
    have helement : arena.tree (elements.get ⟨i, hi⟩) ∈ elements.map arena.tree :=
      List.mem_map_of_mem (List.get_mem ..)
    refine ⟨h.toSettled, hchildren.get hi hi', hlist.of_array _ helement, ?_⟩
    exact (hdata.part (List.mem_cons_of_mem _ (List.mem_append_right _ List.mem_cons_self))).part
      helement
  · rcases List.mem_append.mp hx with hx | hx
    · exact List.mem_append_left _ (List.mem_map_of_mem hx)
    · exact List.mem_append_right _ (List.mem_cons_of_mem _ (List.mem_map_of_mem hx))

/-- What makes up a call is apart from what is below the children. -/
theorem Program.Listed.outside (h : Program.Listed arena slot list elements)
    (hholds : arena.HoldsList slot list helper before back) :
    slot ∉ arena.Beneath elements ∧ list ∉ arena.Beneath elements ∧
      (∀ x ∈ before ++ back, x ∈ (arena.get slot).children ∧ x ≠ list) ∧
      ∀ x ∈ (arena.get slot).children, x ≠ list → arena.Outside (arena.Beneath elements) x := by
  obtain ⟨callee, hcall, -⟩ := Script.Arena.call_of_helper? hholds.helper_eq
  obtain ⟨-, -, hparts⟩ := Program.parts_apart h.forest h.items hholds hcall
  have happart := Program.elements_apart h.forest h.array h.items
  refine ⟨fun ⟨_, hid, _, hpath⟩ => happart.path_mem hid hpath rfl, fun ⟨_, hid, _, hpath⟩ =>
    hparts.path_mem (List.mem_append_left _ hid) hpath rfl, fun x hx => ⟨?_, (hparts.mem
      (List.mem_append_right _ (List.mem_cons_of_mem _ hx))).1⟩, fun x hx hne => ?_⟩
  · rw [hcall, hholds.arguments_eq]
    simp only [Script.Node.children, List.mem_cons, List.mem_append] at hx ⊢
    tauto
  · refine .of_forest (hparts.perm List.perm_append_comm) ?_
    rw [hcall, hholds.arguments_eq] at hx
    simp only [Script.Node.children, List.mem_cons, List.mem_append] at hx ⊢
    tauto

/-- A call is still the same when there was work below its children, and of what
    was worked on there is nothing below the call but below its children. -/
theorem Program.Listed.later (h : Program.Listed arena slot list elements)
    (hholds : arena.HoldsList slot list helper before back)
    (hedit : Arena.EditedIn (arena.Beneath elements) arena after) :
    after.childArray? slot = some list ∧ after.elements? list = some elements ∧
      after.HoldsList slot list helper before back ∧
      (∀ x ∈ before ++ back, after.tree x = arena.tree x) ∧
      ∀ x ∈ arena.Beneath elements ∪ added arena after, ∀ path, after.Path slot path x →
        ∃ element ∈ elements, ∃ path, after.Path element path x := by
  obtain ⟨hslot, hlist, hothers, hparts⟩ := h.outside hholds
  have hgrounded : ∀ x ∈ (arena.get slot).children, arena.Grounded x := fun x hx =>
    (h.forest.isTree List.mem_cons_self).grounded.part hx
  have hltslot := (h.forest.mem List.mem_cons_self).2
  have hltlist := (hgrounded list hholds.mem_children).lt_size [] list .here
  have hgetslot := hedit.same slot hltslot hslot
  have hgetlist := hedit.same list hltlist hlist
  have hget : ∀ x ∈ (arena.get slot).children, after.get x = arena.get x := by
    intro x hx
    by_cases hne : x = list
    · rw [hne, hgetlist]
    · exact (hparts x hx hne).get hedit [] x .here
  have hnames : ∀ x ∈ (arena.get slot).children, ∀ name,
      after.get x = .ident name ↔ arena.get x = .ident name := fun x hx name => by rw [hget x hx]
  have harguments : after.arguments slot = arena.arguments slot := by
    rw [Arena.arguments, hgetslot, ← Arena.arguments]
  refine ⟨?_, ?_, ⟨?_, harguments.trans hholds.arguments_eq, hholds.place⟩, fun x hx => ?_,
    fun x hx path hpath => ?_⟩
  · rw [Script.Arena.childArray?_congr hgetslot hnames fun x hx => by
      rw [Arena.elements?, hget x hx, ← Arena.elements?], h.array]
  · rw [Arena.elements?, hgetlist, ← Arena.elements?, h.items]
  · rw [Script.Arena.helper?_congr hgetslot hnames, hholds.helper_eq]
  · obtain ⟨hmem, hne⟩ := hothers x hx
    exact ((hgrounded x hmem).same hedit.size_le ((hparts x hmem hne).get hedit)).2
  · cases hpath with
    | here => exact absurd hx (not_or_intro hslot fun hnew => Nat.not_lt_of_le hnew.1 hltslot)
    | @down _ part _ i path hpart hpath =>
        rw [hgetslot] at hpart
        have hmem := List.mem_of_getElem? hpart
        by_cases hne : part = list
        · subst hne
          cases hpath with
          | here => exact absurd hx (not_or_intro hlist fun hnew => Nat.not_lt_of_le hnew.1 hltlist)
          | @down _ element _ i path hpart hpath =>
              rw [hgetlist, Script.Arena.get_of_elements? h.items] at hpart
              exact ⟨element, List.mem_of_getElem? hpart, path, hpath⟩
        · exact absurd hx ((hparts part hmem hne).later hedit path x hpath).2
end RenderFold
