import RenderFold.Proofs.Folding.RunMarkup
import RenderFold.Proofs.Folding.Sources
import RenderFold.Proofs.Folding.Stamped
import RenderFold.Proofs.Html.Served
import RenderFold.Proofs.Script.Printable

/-!
# Markup That Is Carried Over

What an expression is worth while it is being folded. The components below it
are not written yet as they will be, since their calls are numbered only when
the component around them is left. So what is said of the expression is said of
what it will have become by then: whatever was done elsewhere, and whatever
numbers the calls below it were given, it can be printed, and it evaluates to a
node that is written as the markup it stood for, if the entry around it has the
children that the numbers name.

## Main definitions

* `Script.Node.WritesData`: A call that has its data written out.
* `Scene.Locates`: An expression that gives a node.
* `Directs`: A call that was numbered, and the child that its number names.
* `Stands`: An entry that a component is written with.
* `Yields`, `Keeps`: An expression with some markup, and one that keeps its
  markup.

## Theorems

* `Keeps.later`: What is done elsewhere makes no difference.
* `Keeps.of_unmarked`: An expression without components that have an entry.
* `Keeps.component`: A call that uses a component with an entry.
-/

namespace RenderFold

open Script (Arena Id Tree)
open Script.Arena (Follows)
open Evaluator (Always AlwaysChild)

/-- A call that makes an element out of a tag, a second argument and a list has
    its data written out, or its children. -/
def Script.Node.WritesData (node : Script.Node Tree) : Prop :=
  ∀ tag second items rest,
    node = .call (.mk (.ident Helper.element.name)) (tag :: second :: .mk (.array items) :: rest) →
    (∃ properties, second = .mk (.object properties)) ∨ second = .mk .null ∨
      ∃ elements, second = .mk (.array elements)

/-- Whether the data of a call is written out, or its children. -/
def Script.Node.writesData : Script.Node Tree → Bool
  | .call (.mk (.ident _)) (_ :: second :: .mk (.array _) :: _) =>
    match second with
    | .mk (.object _) | .mk .null | .mk (.array _) => true
    | _ => false
  | _ => true

theorem Script.Node.writesData_sound {node : Script.Node Tree} (h : node.writesData = true) :
    node.WritesData := by
  rintro tag second items rest rfl
  unfold writesData at h
  dsimp only at h
  split at h
  · exact .inl ⟨_, rfl⟩
  · exact .inr (.inl rfl)
  · exact .inr (.inr ⟨_, rfl⟩)
  · cases h

/-- No entry has more children than can be numbered by a literal. -/
def FoldedTree.Small (tree : FoldedTree) : Prop :=
  ∀ entry, tree.Has entry → entry.children.length ≤ 9 * 10 ^ 15

theorem FoldedTree.Small.child {tree child : FoldedTree} (h : tree.Small)
    (hchild : child ∈ tree.children) : child.Small :=
  fun entry hentry => h entry (.child hchild hentry)

/-- What an expression is evaluated among, and from which serial number on. -/
structure Scene where
  setting : Setting
  env : Env
  start : Nat

/-- The variables hold what was made before, and none of them has the name of a
    helper that constructs a node. -/
structure Scene.Settled (scene : Scene) : Prop where
  older : scene.env.Older scene.start
  names : ∀ helper : Helper, helper.constructsNode = true → Env.get? scene.env helper.name = none

/-- An expression gives a node, and is one that can be rewritten: it can be
    printed, and the data of its calls is written out. -/
structure Scene.Locates (scene : Scene) (depth : Nat) (raw : Bool) (t : Tree) (view : View) :
    Prop extends scene.Settled where
  child : AlwaysChild scene.setting scene.env scene.start depth raw t view
  printable : t.Printable
  data : t.All Script.Node.WritesData

/-- A call has been given the number of one of the children of an entry, and
    the child was made at the call. -/
def Directs (entry : FoldedTree) (calls : List (Id × FoldedTree)) (arena after : Arena)
    (call : Id) : Prop :=
  ∃ child i, (call, child) ∈ calls ∧ entry.children[i]? = some child ∧
    Program.Stamped arena after call i

section Definitions

variable (engine : Engine) (functions : Component → Option RenderFunction)
  (owner : Option Instance) (context : TagContext)

/-- A component is written as some markup if it has an entry, wherever the
    entry is. -/
structure Stands (use : ComponentId) (data : NodeData) (child : FoldedTree) (html : String) :
    Prop where
  name : child.component = (engine.components use).name
  serves : child.Small → ∀ place, ∃ inst view,
    engine.rendering? (fun _ => some child.function) .dynamic owner (engine.components use)
        { data with treeSlot := place } = some (inst, view) ∧
      Serves engine functions (some child) (some inst)
        (context.nest { data with treeSlot := place } (engine.components use).scopeId) [view] html

/-- Under an entry an expression evaluates to a node that is written as some
    markup, also where its text is no longer raw, and it can be printed. -/
def Yields (scene : Scene) (depth : Nat) (raw : Bool) (entry : FoldedTree) (t : Tree)
    (html : String) : Prop :=
  ∃ view, Always scene.setting scene.env scene.start depth t (Datum.Shows view) ∧
    (∀ content, view ≠ .text content true) ∧
    (∀ raw', (raw' = true → raw = true) →
      Serves engine functions (some entry) owner context [Datum.asChild raw' view] html) ∧
    t.Printable

/-- Whatever becomes of the calls that are numbered later, an expression evaluates
    to a node that is written as some markup. A text below which something is
    numbered is not taken out of the call around it. -/
structure Keeps (scene : Scene) (depth : Nat) (raw : Bool) (arena : Arena)
    (calls : List (Id × FoldedTree)) (slot : Id) (html : String) : Prop where
  grounded : arena.Grounded slot
  text : ∀ argument, arena.textArgument? slot = some argument →
    ∀ call ∈ calls, ∀ path, ¬ arena.Path slot path call.1
  keeps : ∀ (after : Arena) (marked : Set Id) (entry : FoldedTree), arena.size ≤ after.size →
    Follows arena after marked slot → entry.Small →
    (∀ call ∈ marked, Directs entry calls arena after call) →
    Yields engine functions owner context scene (depth + 2) raw entry (after.tree slot) html

end Definitions

/-- The number of a call can be printed. -/
theorem printable_ofNat {n : Nat} (h : n < 9 * 10 ^ 15) :
    (Tree.mk (.num (Float.ofNat n).toBits)).Printable := by
  obtain ⟨hliteral, hfinite⟩ := Script.literal_ofNat h
  exact ⟨.num hliteral, .mk hfinite fun _ ht => absurd ht List.not_mem_nil⟩

section Carried

variable {engine : Engine} {functions : Component → Option RenderFunction}
  {owner : Option Instance} {context : TagContext} {scene : Scene} {depth : Nat} {raw : Bool}
  {arena after : Arena} {calls calls' : List (Id × FoldedTree)} {slot : Id} {html : String}
  {marked : Set Id} {entry : FoldedTree}

/-- The tree of a call of a helper. -/
theorem tree_of_helper? {helper : Helper} (hgrounded : arena.Grounded slot)
    (h : arena.helper? slot = some helper) :
    arena.tree slot = .ofCall helper ((arena.arguments slot).map arena.tree) := by
  obtain ⟨callee, hget, hcallee⟩ := Script.Arena.call_of_helper? h
  exact Script.Arena.tree_call_of_grounded hget hcallee fun x hx =>
    hgrounded.part (Script.Arena.arguments_subset arena slot hx)

/-- The text of a call is found by looking at the call and at the names among its
    parts. -/
theorem textArgument?_congr (hslot : after.get slot = arena.get slot)
    (hnames : ∀ x ∈ (arena.get slot).children, ∀ name,
      after.get x = .ident name ↔ arena.get x = .ident name) :
    after.textArgument? slot = arena.textArgument? slot := by
  have harguments : after.arguments slot = arena.arguments slot := by
    rw [Script.Arena.arguments, hslot, Script.Arena.arguments]
  unfold Script.Arena.textArgument? Script.Arena.isTextCall
  rw [Script.Arena.helper?_congr hslot hnames, harguments]

/-- The text of a call is the same where everything below the call is. -/
theorem textArgument?_same (hsame : ∀ path x, arena.Path slot path x → after.get x = arena.get x) :
    after.textArgument? slot = arena.textArgument? slot := by
  refine textArgument?_congr (hsame [] slot .here) fun x hx name => ?_
  obtain ⟨place, hplace⟩ := List.getElem?_of_mem hx
  rw [hsame _ x (.down hplace .here)]

/-- Only the calls below an expression count. -/
theorem Keeps.become
    (h : Keeps engine functions owner context scene depth raw arena calls slot html)
    (hsize : arena.size ≤ after.size) (hfollows : Follows arena after marked slot)
    (hsmall : entry.Small)
    (hdirects : ∀ x ∈ marked, ∀ path, arena.Path slot path x → Directs entry calls arena after x) :
    Yields engine functions owner context scene (depth + 2) raw entry (after.tree slot) html :=
  h.keeps after _ entry hsize hfollows.within hsmall fun x ⟨hx, path, hpath⟩ =>
    hdirects x hx path hpath

/-- What is done elsewhere makes no difference, nor do entries that are made for
    other calls. -/
theorem Keeps.later (h : Keeps engine functions owner context scene depth raw arena calls slot html)
    (hsize : arena.size ≤ after.size)
    (hsame : ∀ path x, arena.Path slot path x → after.get x = arena.get x)
    (hcalls : ∀ call ∈ calls', ∀ path, arena.Path slot path call.1 → call ∈ calls) :
    Keeps engine functions owner context scene depth raw after calls' slot html where
  grounded := (h.grounded.same hsize hsame).1
  text argument htext call hcall path hpath := by
    have hback : arena.Path slot path call.1 := hpath.back fun path x hx =>
      congrArg Script.Node.children (hsame path x hx)
    rw [textArgument?_same hsame] at htext
    exact h.text argument htext call (hcalls call hcall path hback) path hback
  keeps last marked entry hlast hfollows hsmall hdirects := by
    refine h.become (hsize.trans hlast) (hfollows.congr hsame) hsmall fun x hx path hpath => ?_
    obtain ⟨child, i, hmem, hchild, hstamped⟩ := hdirects x hx
    exact ⟨child, i, hcalls _ hmem path hpath, hchild, hstamped.earlier (h.grounded.below hpath)
      hsize fun way y hway => hsame _ y (hpath.append hway)⟩

/-- A child that is moved under markup of another kind is written as before if
    there is nothing to escape in it. -/
theorem Serves.asChild {entry : Option FoldedTree} {raw raw' : Bool} {view : View}
    (hraw : raw' = true → raw = true) (hview : ∀ content, view ≠ .text content true)
    (hescape : ∀ content, Datum.asChild raw view = .text content true →
      Markup.escape content = content)
    (h : Serves engine functions entry owner context [Datum.asChild raw view] html) :
    Serves engine functions entry owner context [Datum.asChild raw' view] html := by
  cases view with
  | text content isRaw =>
      have hnot : isRaw = false := by
        cases isRaw with
        | false => rfl
        | true => exact absurd rfl (hview content)
      subst hnot
      cases raw <;> cases raw'
      · exact h
      · exact absurd (hraw rfl) Bool.false_ne_true
      -- A raw text with nothing to escape in it.
      · intro tree outer inst memory hinst hmemory
        have hraw : Serves engine functions entry owner context [.text content true] content :=
          .text rfl
        obtain ⟨_, _, _, hwritten, -⟩ := h tree outer inst memory hinst hmemory
        obtain ⟨_, _, _, hwritten', -⟩ := hraw tree outer inst memory hinst hmemory
        obtain rfl := hwritten.unique hwritten'
        have hmarkup : (View.text html false).textMarkup? = some html :=
          congrArg some (hescape html rfl)
        exact Serves.text hmarkup tree outer inst memory hinst hmemory
      · exact h
  | _ => exact h

/-- An expression below which no component has an entry stays as it is. -/
theorem Keeps.of_unmarked {view : View}
    (hlocated : scene.Locates depth raw (arena.tree slot) view) (hgrounded : arena.Grounded slot)
    (hnone : ∀ call ∈ calls, ∀ path, ¬ arena.Path slot path call.1)
    (hescape : ∀ content, view = .text content true → Markup.escape content = content)
    (hserves : ∀ entry, Serves engine functions entry owner context [view] html) :
    Keeps engine functions owner context scene depth raw arena calls slot html where
  grounded := hgrounded
  text _ _ := hnone
  keeps after marked entry hsize hfollows _ hdirects := by
    obtain ⟨node, halways, hraw, rfl⟩ := hlocated.child
    have htree := (hfollows.unmarked hgrounded hsize fun path x hpath hx => by
      obtain ⟨child, i, hmem, -⟩ := hdirects x hx
      exact hnone _ hmem path hpath).2
    rw [htree]
    exact ⟨node, halways.deeper (Nat.le_add_right _ 2), hraw,
      fun raw' hraw' => (hserves _).asChild hraw' hraw hescape, hlocated.printable⟩

/-- A call that uses a component makes the same node when it is numbered, with the
    place of the entry that the component is written with. -/
theorem Keeps.component {use : ComponentId} {data : NodeData} {child : FoldedTree}
    (hlocated : scene.Locates depth raw (arena.tree slot) (.component use data))
    (hgrounded : arena.Grounded slot)
    (hserves : ∀ entry, Serves engine functions entry owner context [.component use data] html)
    (hstands : Stands engine functions owner context use data child html) :
    Keeps engine functions owner context scene depth raw arena [(slot, child)] slot html where
  grounded := hgrounded
  text argument htext := by
    -- A call with a single text makes no component.
    obtain ⟨view, halways, -, hview⟩ := hlocated.child
    obtain ⟨hhelper, harguments⟩ := Script.Arena.textArgument?_eq_some htext
    rw [tree_of_helper? hgrounded hhelper, harguments, List.map_singleton] at halways
    obtain ⟨content, rfl, -⟩ := (halways.deeper (Nat.le_succ _)).markup_text
      (hlocated.names .markup rfl) hlocated.older
    cases hview
  keeps after marked entry hsize hfollows hsmall hdirects := by
    obtain ⟨view, halways, hraw, hview⟩ := hlocated.child
    obtain rfl : view = .component use data := by
      cases view <;> first | exact hview.symm | cases hview
    by_cases hslot : slot ∈ marked
    · obtain ⟨other, i, hmem, hchild, hstamped⟩ := hdirects slot hslot
      cases List.mem_singleton.mp hmem
      have hown : Serves engine functions (some entry) owner context [.component use data] html :=
        hserves _
      rcases hstamped.tree with htree | ⟨arguments, edited, hset, hbefore, htree⟩
      · rw [htree]
        exact ⟨_, halways.deeper (Nat.le_add_right _ 2), hraw, fun _ _ => hown,
          hlocated.printable⟩
      · obtain ⟨hlt, -⟩ := List.getElem?_eq_some_iff.mp hchild
        have hindex : i < 9 * 10 ^ 15 := hlt.trans_le (hsmall entry .self)
        rw [hbefore] at halways
        obtain ⟨place, hstamp, hplaced⟩ := Evaluator.always_stamped hlocated.older
          (hlocated.names .element rfl) hindex hset halways
        have hprintable : (Tree.ofCall .element edited).Printable := by
          have hcall := hlocated.printable
          rw [hbefore] at hcall
          exact .ofCall _ (.dataSet hset (printable_ofNat hindex) hcall.of_ofCall)
        rw [htree]
        refine ⟨_, hplaced.deeper (Nat.le_succ _), nofun, fun _ _ => ?_, hprintable⟩
        rcases hstamp with rfl | rfl
        · obtain ⟨inst, view, hroot, hbelow⟩ :=
            hstands.serves (hsmall.child (List.mem_of_getElem? hchild)) (some i)
          have hplaced : FoldedTree.childFor? (some entry) (engine.components use)
              { data with treeSlot := some i } = some child := by
            show Option.filter _ (entry.children[i]?) = _
            rw [hchild, Option.filter_some, if_pos (beq_iff_eq.mpr hstands.name)]
          exact Serves.component hplaced hroot hbelow
        · exact hown
    · have htree := (hfollows.unmarked hgrounded hsize fun path x hpath hx => by
        obtain ⟨child, i, hmem, -⟩ := hdirects x hx
        cases List.mem_singleton.mp hmem
        exact hslot hx).2
      rw [htree]
      exact ⟨_, halways.deeper (Nat.le_add_right _ 2), hraw, fun _ _ => hserves _,
        hlocated.printable⟩

end Carried

end RenderFold
