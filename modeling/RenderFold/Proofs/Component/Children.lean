import RenderFold.Proofs.Component.Evaluated
import RenderFold.Proofs.Script.Paths
import RenderFold.Proofs.Script.ReadTrees
import RenderFold.Script.Shape

/-!
# Children by Position

A list of children that is written out in a call is found by looking at the
call, while the children of the node that the call makes are found by running
it. Where both are the same list, the elements of the list and the children of
the node correspond one by one.

They need not be the same. A name may have been taken by a variable, and an
element whose second argument turns out to be neither an object nor null has
that argument for its children, whatever comes after it.

## Main definitions

* `View.encloses`, `View.holdsRaw`: Nodes with children, and those in which
  text is raw.
* `Datum.isData`: Whether a second argument is the data of an element.
* `Evaluator.childDatum?`: The children among the arguments of a helper.

## Theorems

* `Datum.views_ofItems`: Every view in a list makes one child of its own.
* `Evaluator.callHelper_children`: Where the children of a node come from.
* `Evaluator.eval_nodeCall`: A call of a constructing helper gives a view.
* `Evaluator.children_correspond`: When elements and children correspond.
-/

namespace RenderFold

open Script (Tree Node Id Arena)

namespace View

/-- Whether the node is markup around children. -/
def encloses : View → Bool
  | element .. | fragment .. => true
  | _ => false

/-- Whether the text directly under the node is raw. -/
def holdsRaw : View → Bool
  | element tag _ _ => Markup.isRawText tag
  | _ => false

end View

namespace Datum

/-- Whether a second argument is the data of an element. Anything else is taken
    for its children. -/
def isData : Datum → Bool
  | .value .null | .value (.object _) => true
  | _ => false

theorem itemViews_correspond {α : Type} {R : α → Datum → Prop} {xs : List α} {items : List Datum}
    (raw : Bool) (h : List.Forall₂ R xs items)
    (hviews : ∀ x ∈ xs, ∀ item, R x item → ∃ serial view, item = .view serial view) :
    List.Forall₂ (fun x child => ∃ serial view, R x (.view serial view) ∧ child = asChild raw view)
      xs (itemViews raw items) := by
  induction h with
  | nil => exact .nil
  | @cons x item xs items hx hrest ih =>
      obtain ⟨serial, view, rfl⟩ := hviews x List.mem_cons_self item hx
      exact .cons ⟨serial, view, hx, rfl⟩
        (ih fun x hmem => hviews x (List.mem_cons_of_mem _ hmem))

/-- Every view in a list makes one child of its own. -/
theorem views_ofItems {α : Type} {R : α → Datum → Prop} {xs : List α} {items : List Datum}
    (raw : Bool) (h : List.Forall₂ R xs items)
    (hviews : ∀ x ∈ xs, ∀ item, R x item → ∃ serial view, item = .view serial view) :
    List.Forall₂ (fun x child => ∃ serial view, R x (.view serial view) ∧ child = asChild raw view)
      xs (views raw (.ofItems items)) := by
  cases h with
  | nil => exact .nil
  | @cons x item xs items hx hrest =>
      obtain ⟨serial, view, rfl⟩ := hviews x List.mem_cons_self item hx
      exact itemViews_correspond raw (.cons hx hrest) hviews

/-- A list of views is not data. -/
theorem isData_ofItems {items : List Datum} : (ofItems items).isData = false := by
  unfold ofItems
  dsimp only
  split <;> rfl

end Datum

/-- A helper is found by its name only. -/
theorem Helper.name_of_ofName? {name : String} {helper : Helper} (h : ofName? name = some helper) :
    name = helper.name := by
  have hname := List.find?_some h
  exact (beq_iff_eq.mp hname).symm

namespace Script.Arena

variable {arena : Arena} {id : Id} {helper : Helper}

theorem call_of_helper? (h : arena.helper? id = some helper) :
    ∃ callee, arena.get id = .call callee (arena.arguments id) ∧
      arena.get callee = .ident helper.name := by
  unfold helper? at h
  unfold arguments
  split at h
  · next callee arguments hcall =>
      split at h
      · next name hname => exact ⟨callee, by rw [hcall], by rw [hname, Helper.name_of_ofName? h]⟩
      · cases h
  · cases h

/-- Where the list of children stands. The second argument of an element is
    looked at first. -/
theorem place_of_childArray? {list : Id} (h : arena.childArray? id = some list) :
    (arena.elements? list).isSome = true ∧
      (arena.helper? id = some .markup ∧ (arena.arguments id)[2]? = some list ∨
        arena.helper? id = some .element ∧ ∃ second, (arena.arguments id)[1]? = some second ∧
          (second = list ∨ second ≠ list ∧ (arena.arguments id)[2]? = some list)) := by
  unfold childArray? at h
  obtain ⟨helper, hhelper, h⟩ := Option.bind_eq_some_iff.mp h
  have hlist := List.find?_some h
  refine ⟨hlist, ?_⟩
  cases helper with
  | markup =>
      have hmem := List.mem_of_find?_eq_some h
      obtain ⟨place, hplace, hlist⟩ := List.mem_filterMap.mp hmem
      rw [List.mem_singleton.mp hplace] at hlist
      exact Or.inl ⟨hhelper, hlist⟩
  | element =>
      refine Or.inr ⟨hhelper, ?_⟩
      cases hsecond : (arena.arguments id)[1]? with
      | none =>
          have hthird : (arena.arguments id)[2]? = none :=
            List.getElem?_eq_none (Nat.le_succ_of_le (List.getElem?_eq_none_iff.mp hsecond))
          simp only [childPlaces, List.filterMap_cons, hsecond, hthird, List.filterMap_nil] at h
          cases h
      | some second =>
          refine ⟨second, rfl, ?_⟩
          simp only [childPlaces, List.filterMap_cons, hsecond, List.filterMap_nil,
            List.find?_cons] at h
          split at h
          · exact Or.inl (Option.some.inj h)
          · next hnone =>
              refine Or.inr ⟨fun heq => ?_, ?_⟩
              · rw [heq, hlist] at hnone
                cases hnone
              · cases hthird : (arena.arguments id)[2]? with
                | none =>
                    rw [hthird] at h
                    cases h
                | some third =>
                    rw [hthird, List.find?_singleton] at h
                    split at h
                    · exact h
                    · cases h
  | _ => cases h

/-- The tree of a call to a helper. -/
theorem IsTree.tree_call (htree : IsTree arena id) (h : arena.helper? id = some helper) :
    arena.tree id =
      .mk (.call (.mk (.ident helper.name)) ((arena.arguments id).map arena.tree)) := by
  obtain ⟨callee, hcall, hname⟩ := call_of_helper? h
  have hcallee : callee ∈ (arena.get id).children := by
    rw [hcall]
    exact List.mem_cons_self
  rw [htree.tree_eq, hcall, Node.map, (htree.part hcallee).tree_eq, hname, Node.map]

end Script.Arena

namespace Evaluator

variable {setting : Setting} {recur : Env → Tree → Eval Datum} {env : Env} {arena : Arena}
  {depth start stop serial : Nat} {helper : Helper}

/-- The children among the arguments of a helper. -/
def childDatum? : Helper → List Datum → Option Datum
  | .element, arguments => if arguments[1]?.any Datum.isData then arguments[2]? else arguments[1]?
  | .markup, arguments => arguments[2]?
  | _, _ => none

/-- What the expression at an index evaluates to, from some serial number on. -/
def Gives (setting : Setting) (depth : Nat) (env : Env) (arena : Arena) (id : Id) (datum : Datum) :
    Prop :=
  ∃ start stop, eval setting depth env (arena.tree id) start = .ok (datum, stop)

theorem made_eq_ok {view : View} {datum : Datum} (h : made view start = .ok (datum, stop)) :
    datum = .view start view := by
  cases h
  rfl

/-- A node made for a name, which may be entered as a component, has the children
    it is given where it belongs to a markup element. -/
private theorem made_children {tag : String} {entry : Option Entry} {data : NodeData}
    {children : Option Datum} {datum : Datum}
    (h : (match entry with
      | some (.component id) => made (.component id data)
      | some (.deferred id) => made (.deferred id data)
      | none => made (.element tag data
          ((children.map (Datum.views (Markup.isRawText tag))).getD []))) start =
        .ok (datum, stop)) :
    ∃ serial node, datum = .view serial node ∧ (node.encloses = true →
      node.children = (children.map (Datum.views node.holdsRaw)).getD []) := by
  split at h
  · exact ⟨_, _, made_eq_ok h, fun hnode => by cases hnode⟩
  · exact ⟨_, _, made_eq_ok h, fun hnode => by cases hnode⟩
  · exact ⟨_, _, made_eq_ok h, fun _ => rfl⟩

theorem construct_children {tag : String} {data : Option Value} {children : Option Datum}
    {datum : Datum} (h : construct setting tag data children start = .ok (datum, stop)) :
    ∃ serial node, datum = .view serial node ∧ (node.encloses = true →
      node.children = (children.map (Datum.views node.holdsRaw)).getD []) := by
  unfold construct at h
  cases data with
  | none => exact made_children h
  | some value =>
      obtain ⟨data, between, -, h⟩ := Eval.bind_eq_ok h
      exact made_children h

/-- A call of a helper that constructs a node gives a view, with its children
    where they belong. -/
theorem callHelper_children {data : List Datum} {datum : Datum}
    (hhelper : helper.constructsNode = true)
    (h : callHelper setting recur helper data start = .ok (datum, stop)) :
    ∃ serial node, datum = .view serial node ∧ (node.encloses = true →
      node.children = ((childDatum? helper data).map (Datum.views node.holdsRaw)).getD []) := by
  unfold callHelper at h
  split at h
  · have hplaces := construct_children h
    rw [List.head?_eq_getElem?] at hplaces
    exact hplaces
  · have hplaces := construct_children h
    rw [List.head?_eq_getElem?] at hplaces
    exact hplaces
  · next tag rest hobject hnull =>
      have hplaces := construct_children h
      cases rest with
      | nil => exact hplaces
      | cons second rest =>
          have hdata : second.isData = false := by
            unfold Datum.isData
            split
            · exact absurd rfl (hnull _)
            · exact absurd rfl (hobject _ _)
            · rfl
          have hchild : childDatum? .element (.value (.str tag) :: second :: rest) = some second :=
            if_neg (by simp only [List.getElem?_cons_succ, List.getElem?_cons_zero, Option.any_some,
              hdata, Bool.false_eq_true, not_false_eq_true])
          rw [hchild]
          exact hplaces
  · cases h
  · exact ⟨_, _, made_eq_ok h, fun hnode => by cases hnode⟩
  · exact ⟨_, _, made_eq_ok h, fun hnode => by cases hnode⟩
  · cases hhelper
  · cases hhelper
  · cases hhelper
  · exact ⟨_, _, made_eq_ok h, fun _ => rfl⟩
  · cases hhelper

/-- A call to a helper whose name no variable has taken. -/
theorem eval_call {arguments : List Tree} {datum : Datum}
    (hname : Env.get? env helper.name = none)
    (h : eval setting depth env (.mk (.call (.mk (.ident helper.name)) arguments)) start =
      .ok (datum, stop)) :
    ∃ below data between, depth = below + 1 ∧
      arguments.mapM (eval setting below env) start = .ok (data, between) ∧
      callHelper setting (eval setting below) helper data between = .ok (datum, stop) := by
  cases depth with
  | zero => cases h
  | succ below =>
      have hhelper : helper? env (.mk (.ident helper.name)) = .ok (some helper) := by
        simp only [helper?, hname, Option.isSome_none, Bool.false_eq_true, if_false,
          Helper.ofName?_name]
      change call setting (eval setting below) env _ arguments start = _ at h
      unfold call at h
      rw [hhelper] at h
      obtain ⟨found, _, hfound, h⟩ := Eval.bind_eq_ok h
      cases hfound
      obtain ⟨data, between, hdata, h⟩ := Eval.bind_eq_ok h
      exact ⟨below, data, between, rfl, hdata, h⟩

/-- A call of a helper that constructs a node evaluates to a view. -/
theorem eval_nodeCall {id : Id} {datum : Datum} (htree : Arena.IsTree arena id)
    (hcall : arena.isNodeCall id = true)
    (hnames : ∀ helper : Helper, helper.constructsNode = true → Env.get? env helper.name = none)
    (h : eval setting depth env (arena.tree id) start = .ok (datum, stop)) :
    ∃ serial view, datum = .view serial view := by
  obtain ⟨helper, hhelper, hconstructs⟩ := (Option.any_eq_true _ _).mp hcall
  rw [htree.tree_call hhelper] at h
  obtain ⟨below, data, between, -, -, h⟩ := eval_call (hnames helper hconstructs) h
  obtain ⟨serial, node, rfl, -⟩ := callHelper_children hconstructs h
  exact ⟨serial, node, rfl⟩

/-- A list of calls that each construct a node gives the views they make. -/
theorem Gives.children {list : Id} {elements : List Id} {datum : Datum}
    (h : Gives setting depth env arena list datum) (htree : Arena.IsTree arena list)
    (helements : arena.elements? list = some elements)
    (hcalls : ∀ element ∈ elements, arena.isNodeCall element = true)
    (hnames : ∀ helper : Helper, helper.constructsNode = true → Env.get? env helper.name = none)
    (raw : Bool) :
    datum.isData = false ∧
      List.Forall₂ (fun element child => ∃ serial view,
        Gives setting depth env arena element (.view serial view) ∧
          child = Datum.asChild raw view) elements (Datum.views raw datum) := by
  obtain ⟨start, stop, h⟩ := h
  have hlist : arena.get list = .array elements := by
    unfold Arena.elements? at helements
    split at helements
    · next harray => rw [harray, Option.some.inj helements]
    · cases helements
  rw [htree.tree_eq, hlist, Node.map] at h
  cases depth with
  | zero => cases h
  | succ below =>
      obtain ⟨items, between, hitems, h⟩ := Eval.bind_eq_ok h
      obtain ⟨rfl, -⟩ := Eval.pure_eq_ok h
      have hall : List.Forall₂ (Gives setting (below + 1) env arena) elements items := by
        refine (List.forall₂_map_left_iff.mp (Eval.mapM_eq_ok hitems)).imp ?_
        rintro element item ⟨start, stop, hitem⟩
        exact ⟨start, stop, eval_below env _ (Nat.le_succ below) hitem⟩
      refine ⟨Datum.isData_ofItems, Datum.views_ofItems raw hall ?_⟩
      rintro element hmem item ⟨start, stop, hitem⟩
      have hpart : element ∈ (arena.get list).children := by
        rw [hlist]
        exact hmem
      exact eval_nodeCall (htree.part hpart) (hcalls element hmem) hnames hitem

/-- The elements of a list of children that is found in a call, and the
    children of the node that the call evaluates to, correspond one by one. The
    elements are calls that construct nodes, no variable has the name of one of
    these helpers, and if the list is the third argument of an element, the
    second is its data. -/
theorem children_correspond {call list : Id} {elements : List Id} {node : View}
    (htree : Arena.IsTree arena call) (hlist : arena.childArray? call = some list)
    (helements : arena.elements? list = some elements)
    (hcalls : ∀ element ∈ elements, arena.isNodeCall element = true)
    (hnames : ∀ helper : Helper, helper.constructsNode = true → Env.get? env helper.name = none)
    (hdata : arena.helper? call = some .element →
      ∀ second given, (arena.arguments call)[1]? = some second → second ≠ list →
        Gives setting depth env arena second given → given.isData = true)
    (h : Gives setting depth env arena call (.view serial node)) (hnode : node.encloses = true) :
    List.Forall₂ (fun element child => ∃ serial view,
      Gives setting depth env arena element (.view serial view) ∧
        child = Datum.asChild node.holdsRaw view) elements node.children := by
  obtain ⟨-, hplace⟩ := Arena.place_of_childArray? hlist
  have hhelper : ∃ helper, arena.helper? call = some helper ∧ helper.constructsNode = true := by
    rcases hplace with ⟨hhelper, -⟩ | ⟨hhelper, -⟩
    · exact ⟨_, hhelper, rfl⟩
    · exact ⟨_, hhelper, rfl⟩
  obtain ⟨helper, hhelper, hconstructs⟩ := hhelper
  obtain ⟨start, stop, h⟩ := h
  rw [htree.tree_call hhelper] at h
  obtain ⟨below, data, between, rfl, harguments, h⟩ := eval_call (hnames helper hconstructs) h
  obtain ⟨_, _, heq, hchildren⟩ := callHelper_children hconstructs h
  cases heq
  rw [hchildren hnode]
  -- What an argument evaluates to stands at the place of the argument.
  have hgiven : ∀ {place : Nat} {argument : Id}, (arena.arguments call)[place]? = some argument →
      ∃ given, data[place]? = some given ∧
        Gives setting (below + 1) env arena argument given := by
    intro place argument hargument
    have hmap : ((arena.arguments call).map arena.tree)[place]? = some (arena.tree argument) := by
      rw [List.getElem?_map, hargument, Option.map_some]
    obtain ⟨given, start, stop, hgiven, heval⟩ := Eval.getElem?_of_mapM harguments hmap
    exact ⟨given, hgiven, start, stop, eval_below env _ (Nat.le_succ below) heval⟩
  have hviews : ∀ {place : Nat}, (arena.arguments call)[place]? = some list →
      ∃ given, data[place]? = some given ∧ given.isData = false ∧
        List.Forall₂ (fun element child => ∃ serial view,
          Gives setting (below + 1) env arena element (.view serial view) ∧
            child = Datum.asChild node.holdsRaw view) elements
          (Datum.views node.holdsRaw given) := by
    intro place hargument
    obtain ⟨given, hdatum, hgives⟩ := hgiven hargument
    have hpart : list ∈ (arena.get call).children := by
      obtain ⟨callee, hcall, -⟩ := Arena.call_of_helper? hhelper
      rw [hcall]
      exact List.mem_cons_of_mem _ (List.mem_of_getElem? hargument)
    exact ⟨given, hdatum, hgives.children (htree.part hpart) helements hcalls hnames _⟩
  rcases hplace with ⟨hmarkup, hthird⟩ | ⟨helement, second, hsecond, rfl | ⟨hne, hthird⟩⟩
  · cases hhelper.symm.trans hmarkup
    obtain ⟨given, hdatum, -, hall⟩ := hviews hthird
    rw [childDatum?, hdatum]
    exact hall
  · cases hhelper.symm.trans helement
    obtain ⟨given, hdatum, hisData, hall⟩ := hviews hsecond
    rw [childDatum?, hdatum, Option.any_some, hisData]
    exact hall
  · cases hhelper.symm.trans helement
    obtain ⟨other, hother, hgives⟩ := hgiven hsecond
    obtain ⟨given, hdatum, -, hall⟩ := hviews hthird
    rw [childDatum?, hother, Option.any_some, hdata helement second other hsecond hne hgives,
      hdatum]
    exact hall

/-- An element with a variable for its second argument, between its tag and its
    children. -/
theorem exists_function : ∃ function : RenderFunction,
    RenderFunction.compile "return _c(\"div\", name, [_v(\"b\")])" = .ok function ∧
      function.arena = ⟨#[.ident "_c", .str "div", .ident "name", .ident "_v", .str "b",
        .call 3 [4], .array [5], .call 0 [1, 2, 6], .ret (some 7), .function none [] [8]]⟩ ∧
      function.root = 9 := by
  have hread : (RenderFunction.compile "return _c(\"div\", name, [_v(\"b\")])").toOption.any
      (fun function => function.arena.nodes = #[.ident "_c", .str "div", .ident "name",
        .ident "_v", .str "b", .call 3 [4], .array [5], .call 0 [1, 2, 6], .ret (some 7),
        .function none [] [8]] && function.root = 9) = true := by decide +kernel
  obtain ⟨function, hfunction, hread⟩ := (Option.any_eq_true _ _).mp hread
  simp only [Bool.and_eq_true, decide_eq_true_eq] at hread
  refine ⟨function, ?_, congrArg Arena.mk hread.1, hread.2⟩
  cases hcompile : RenderFunction.compile "return _c(\"div\", name, [_v(\"b\")])" with
  | error e =>
      rw [hcompile] at hfunction
      cases hfunction
  | ok read =>
      rw [hcompile] at hfunction
      cases hfunction
      rfl

/-- Where the second argument is null, the third holds the children. -/
theorem children_correspond_null : ∃ function : RenderFunction,
    RenderFunction.compile "return _c(\"div\", name, [_v(\"b\")])" = .ok function ∧
      List.Forall₂ (fun element child => ∃ serial view,
        Gives ⟨"page", [], [], []⟩ 4 [[]] function.arena element (.view serial view) ∧
          child = Datum.asChild false view) [5] [.text "b" false] := by
  obtain ⟨function, hcompile, harena, hroot⟩ := exists_function
  obtain ⟨span, hspan, hnodup⟩ := function.isTree
  have htree : Arena.IsTree function.arena function.root :=
    Arena.Forest.isTree ⟨span, hspan, hnodup, fun x _ => Set.mem_univ x⟩ List.mem_cons_self
  have hpath : Arena.Path function.arena function.root [0, 0] 7 := by
    rw [harena, hroot]
    exact .down rfl (.down rfl .here)
  refine ⟨function, hcompile, ?_⟩
  have hcorrespond := @children_correspond ⟨"page", [], [], []⟩ [[]] function.arena 4 1 7 6 [5]
    (.element "div" .empty [.text "b" false]) (htree.below hpath)
  rw [harena] at hcorrespond ⊢
  refine hcorrespond rfl rfl (by decide) (fun _ _ => rfl) ?_ ⟨0, _, rfl⟩ rfl
  rintro - second given hsecond - ⟨start, stop, h⟩
  cases hsecond
  cases h
  rfl

/-- Elements and children need not correspond, even if there are as many of the
    one as of the other. -/
theorem children_shift : ¬ ∀ (function : RenderFunction) (setting : Setting) (env : Env)
    (depth serial : Nat) (path : List Nat) (call list : Id) (elements : List Id) (node : View),
    Arena.Path function.arena function.root path call →
    function.arena.childArray? call = some list →
    function.arena.elements? list = some elements →
    (∀ element ∈ elements, function.arena.isNodeCall element = true) →
    Gives setting depth env function.arena call (.view serial node) → node.encloses = true →
    elements.length = node.children.length →
    ∀ (i : Nat) (element : Id) (child : View), elements[i]? = some element →
      node.children[i]? = some child →
      ∃ serial view raw, Gives setting depth env function.arena element (.view serial view) ∧
        child = Datum.asChild raw view := by
  intro hall
  obtain ⟨function, -, harena, hroot⟩ := exists_function
  have hshift := hall function ⟨"page", [("name", .str "ada")], [], []⟩ [[]] 4 1 [0, 0] 7 6 [5]
    (.element "div" .empty [.text "ada" false])
  rw [harena, hroot] at hshift
  obtain ⟨serial, view, raw, ⟨start, stop, h⟩, hchild⟩ := hshift
    (.down rfl (.down rfl .here)) rfl rfl (by decide) ⟨0, _, rfl⟩ rfl rfl 0 5 _ rfl rfl
  cases h
  injection hchild with htext
  exact absurd htext (by decide)

end Evaluator

end RenderFold
