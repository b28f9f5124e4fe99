import RenderFold.Proofs.Component.Children
import RenderFold.Proofs.Component.Serials
import RenderFold.Proofs.Component.Sums
import RenderFold.Proofs.Script.Rewritten

/-!
# Evaluating Again

A call that constructs a node may be rewritten around its children. The
children are evaluated again then, after other expressions than before, so with
other serial numbers to hand out. A child gives the same view all the same, as
all that its variables hold was made before. And the helper makes the same node
around other children.

## Main definitions

* `Evaluator.Always`: What holds of an expression from any serial number on.
* `Datum.Shows`: A datum that is a given view.
* `View.withChildren`: A node with other children.
* `Evaluator.Precede`: What comes before the children of a node.

## Theorems

* `Evaluator.Always.of_view`, `Evaluator.Always.of_text`: What is evaluated
  once can be evaluated again.
* `Evaluator.callHelper_withChildren`: A node with other children.
* `Evaluator.always_literal`, `Evaluator.always_fragment`,
  `Evaluator.always_wrapped`: New markup.
-/

namespace RenderFold

open Script (Tree Node Id Arena)

/-- The datum is a given view, made at some time. -/
def Datum.Shows (view : View) (datum : Datum) : Prop := ∃ serial, datum = .view serial view

/-- The same node with other children. -/
def View.withChildren (view : View) (children : List View) : View :=
  match view with
  | element tag data _ => element tag data children
  | fragment opening closing _ => fragment opening closing children
  | other => other

namespace View

variable {view : View} {children : List View}

theorem children_withChildren (h : view.encloses = true) :
    (view.withChildren children).children = children := by
  cases view with
  | element | fragment => rfl
  | _ => cases h

end View

theorem Datum.itemViews_of_shows {views : List View} {items : List Datum}
    (h : List.Forall₂ Shows views items) (raw : Bool) :
    itemViews raw items = views.map (asChild raw) := by
  induction h with
  | nil => rfl
  | cons hview _ ih =>
      obtain ⟨serial, rfl⟩ := hview
      rw [itemViews, ih, List.map_cons]
      rfl

/-- The children of a list of views. -/
theorem Datum.views_of_shows {views : List View} {items : List Datum}
    (h : List.Forall₂ Shows views items) (raw : Bool) :
    Datum.views raw (.ofItems items) = views.map (asChild raw) := by
  have hitems := itemViews_of_shows h raw
  cases h with
  | nil => rfl
  | cons hview _ =>
      obtain ⟨serial, rfl⟩ := hview
      exact hitems

namespace Eval

variable {α β : Type} {f : α → Eval β} {xs ys : List α} {zs : List β} {c c' : Nat}

/-- The items of two lists are worked through one list after the other. -/
theorem mapM_append_eq_ok (h : (xs ++ ys).mapM f c = .ok (zs, c')) :
    ∃ front between back, xs.mapM f c = .ok (front, between) ∧
      ys.mapM f between = .ok (back, c') ∧ zs = front ++ back := by
  rw [List.mapM_append] at h
  obtain ⟨front, between, hfront, h⟩ := bind_eq_ok h
  obtain ⟨back, stop, hback, h⟩ := bind_eq_ok h
  obtain ⟨rfl, rfl⟩ := pure_eq_ok h
  exact ⟨front, between, back, hfront, hback, rfl⟩

theorem mapM_append_of_ok {front back : List β} {between : Nat}
    (hfront : xs.mapM f c = .ok (front, between)) (hback : ys.mapM f between = .ok (back, c')) :
    (xs ++ ys).mapM f c = .ok (front ++ back, c') := by
  rw [List.mapM_append, bind_of_ok hfront, bind_of_ok hback]
  rfl

theorem mapM_cons_eq_ok {x : α} (h : (x :: xs).mapM f c = .ok (zs, c')) :
    ∃ z between rest, f x c = .ok (z, between) ∧ xs.mapM f between = .ok (rest, c') ∧
      zs = z :: rest := by
  rw [List.mapM_cons] at h
  obtain ⟨z, between, hz, h⟩ := bind_eq_ok h
  obtain ⟨rest, stop, hrest, h⟩ := bind_eq_ok h
  obtain ⟨rfl, rfl⟩ := pure_eq_ok h
  exact ⟨z, between, rest, hz, hrest, rfl⟩

theorem mapM_cons_of_ok {x : α} {z : β} {between : Nat} (hx : f x c = .ok (z, between))
    (hxs : xs.mapM f between = .ok (zs, c')) : (x :: xs).mapM f c = .ok (z :: zs, c') := by
  rw [List.mapM_cons, bind_of_ok hx, bind_of_ok hxs]
  rfl

end Eval

namespace Evaluator

variable {setting : Setting} {env : Env} {bound depth depth' start stop : Nat} {t : Tree}
  {datum : Datum}

/-- From any serial number on that is not below a bound, an expression
    evaluates to something that has a property. -/
def Always (setting : Setting) (env : Env) (bound depth : Nat) (t : Tree) (P : Datum → Prop) :
    Prop :=
  ∀ start, bound ≤ start → ∃ datum stop, eval setting depth env t start = .ok (datum, stop) ∧
    P datum ∧ start ≤ stop

/-- Evaluating an expression takes back no serial number. -/
theorem eval_le (h : eval setting depth env t start = .ok (datum, stop)) : start ≤ stop :=
  (eval_postpones setting 0 0 depth env t).le h

theorem mapM_eval_le {ts : List Tree} {data : List Datum}
    (h : ts.mapM (eval setting depth env) start = .ok (data, stop)) : start ≤ stop :=
  (Eval.Postpones.mapM fun t _ => eval_postpones setting 0 0 depth env t).le h

namespace Always

variable {P Q : Datum → Prop}

theorem of_view {view : View} {serial : Nat} (henv : env.Older bound) (hstart : bound ≤ start)
    (h : eval setting depth env t start = .ok (.view serial view, stop)) :
    Always setting env bound depth t (Datum.Shows view) := by
  intro other hother
  obtain ⟨serial', stop', heval, hle⟩ := eval_view_from henv hstart h hother
  exact ⟨_, stop', heval, ⟨serial', rfl⟩, hle⟩

theorem of_text (henv : env.Older bound) (hstart : bound ≤ start)
    (h : eval setting depth env t start = .ok (datum, stop)) :
    Always setting env bound depth t fun other => other.text = datum.text :=
  fun _ hother => eval_text_from henv hstart h hother

/-- What is evaluated again is the same but for serial numbers. -/
theorem of_eval (henv : env.Older bound) (hstart : bound ≤ start)
    (h : eval setting depth env t start = .ok (datum, stop)) :
    Always setting env bound depth t (Datum.Alike bound datum) := by
  intro other hother
  obtain ⟨original, delay, hdatum, hfrom⟩ := eval_from henv hstart h
  obtain ⟨delay', stop', heval, hle⟩ := hfrom other hother
  exact ⟨_, stop', heval, ⟨original, delay, delay', hdatum, rfl⟩, hle⟩

theorem mono (h : Always setting env bound depth t P) (hPQ : ∀ datum, P datum → Q datum) :
    Always setting env bound depth t Q := by
  intro start hstart
  obtain ⟨datum, stop, heval, hdatum, hle⟩ := h start hstart
  exact ⟨datum, stop, heval, hPQ datum hdatum, hle⟩

theorem deeper (h : Always setting env bound depth t P) (hdepth : depth ≤ depth') :
    Always setting env bound depth' t P := by
  intro start hstart
  obtain ⟨datum, stop, heval, hdatum, hle⟩ := h start hstart
  exact ⟨datum, stop, eval_below env t hdepth heval, hdatum, hle⟩

/-- Expressions one after another. -/
theorem mapM {α : Type} {R : α → Datum → Prop} {ts : List Tree} {xs : List α}
    (h : List.Forall₂ (fun t x => Always setting env bound depth t (R x)) ts xs)
    (hstart : bound ≤ start) :
    ∃ data stop, ts.mapM (eval setting depth env) start = .ok (data, stop) ∧
      List.Forall₂ R xs data ∧ start ≤ stop := by
  induction h generalizing start with
  | nil => exact ⟨[], start, rfl, .nil, Nat.le_refl _⟩
  | cons ht _ ih =>
      obtain ⟨datum, between, heval, hdatum, hle⟩ := ht start hstart
      obtain ⟨data, stop, hrest, hdata, hle'⟩ := ih (hstart.trans hle)
      exact ⟨_, stop, Eval.mapM_cons_of_ok heval hrest, .cons hdatum hdata, hle.trans hle'⟩

end Always

section Nodes

variable {helper : Helper} {tag : String} {data : Option Value} {given given' : Datum}
  {serial c : Nat} {node : View}

/-- A node made for a name, which is not entered as a component. -/
private theorem made_withChildren {entry : Option Entry} {data : NodeData}
    (h : (match entry with
      | some (.component id) => made (.component id data)
      | some (.deferred id) => made (.deferred id data)
      | none => made (.element tag data (Datum.views (Markup.isRawText tag) given))) start =
        .ok (.view serial node, stop))
    (hnode : node.encloses = true) (given' : Datum) (c : Nat) :
    (match entry with
      | some (.component id) => made (.component id data)
      | some (.deferred id) => made (.deferred id data)
      | none => made (.element tag data (Datum.views (Markup.isRawText tag) given'))) c =
        .ok (.view c (node.withChildren (Datum.views node.holdsRaw given')), c + 1) := by
  cases entry with
  | some entry =>
      cases entry <;> cases made_eq_ok h <;> cases hnode
  | none =>
      cases made_eq_ok h
      rfl

theorem construct_withChildren
    (h : construct setting tag data (some given) start = .ok (.view serial node, stop))
    (hnode : node.encloses = true) (given' : Datum) (c : Nat) :
    construct setting tag data (some given') c =
      .ok (.view c (node.withChildren (Datum.views node.holdsRaw given')), c + 1) := by
  unfold construct at h ⊢
  cases data with
  | none => exact made_withChildren h hnode given' c
  | some value =>
      dsimp only at h ⊢
      cases hvalue : NodeData.ofValue value with
      | error e =>
          rw [hvalue] at h
          cases h
      | ok data =>
          rw [hvalue] at h
          exact made_withChildren h hnode given' c

/-- What comes before the children among the arguments of a helper: both sides
    of markup, or the tag of an element and maybe its data. -/
def Precede (helper : Helper) (before : List Datum) : Prop :=
  helper = .markup ∧ before.length = 2 ∨ helper = .element ∧ (before.length = 1 ∨
    ∃ tag second, before = [tag, second] ∧ second.isData = true)

/-- A second argument that is not data holds the children. -/
theorem callHelper_second {recur : Env → Tree → Eval Datum} {after : List Datum}
    (hgiven : given.isData = false) :
    callHelper setting recur .element (.value (.str tag) :: given :: after) =
      construct setting tag none (some given) := by
  cases given with
  | value plain =>
      cases plain with
      | null | object => cases hgiven
      | _ => rfl
  | _ => rfl

/-- A helper makes the same node around other children. -/
theorem callHelper_withChildren {recur recur' : Env → Tree → Eval Datum}
    {before after after' : List Datum} (hplace : Precede helper before)
    (hgiven : given.isData = false) (hgiven' : given'.isData = false)
    (h : callHelper setting recur helper (before ++ given :: after) start =
      .ok (.view serial node, stop)) (hnode : node.encloses = true) (c : Nat) :
    callHelper setting recur' helper (before ++ given' :: after') c =
      .ok (.view c (node.withChildren (Datum.views node.holdsRaw given')), c + 1) := by
  rcases hplace with ⟨rfl, hlength⟩ | ⟨rfl, hplace⟩
  · obtain ⟨opening, closing, rfl⟩ := List.length_eq_two.mp hlength
    cases h
    rfl
  -- An element is made for a tag, and fails without one.
  · obtain ⟨tag, rest, hbefore⟩ : ∃ tag rest, before = .value (.str tag) :: rest := by
      cases before with
      | nil => simp at hplace
      | cons first rest =>
          cases first with
          | value plain =>
              cases plain with
              | str tag => exact ⟨tag, rest, rfl⟩
              | _ => cases h
          | _ => cases h
    subst hbefore
    rcases hplace with hlength | ⟨_, second, heq, hdata⟩
    · obtain rfl := List.length_eq_zero_iff.mp (Nat.succ.inj hlength)
      have hmade : construct setting tag none (some given) start = .ok (.view serial node, stop) :=
        (congrFun (callHelper_second hgiven) start).symm.trans h
      exact (congrFun (callHelper_second hgiven') c).trans
        (construct_withChildren hmade hnode given' c)
    · cases heq
      cases second with
      | value plain =>
          cases plain with
          | null =>
              have hmade : construct setting tag none (some given) start =
                  .ok (.view serial node, stop) := h
              exact construct_withChildren hmade hnode given' c
          | object fields =>
              have hmade : construct setting tag (some (.object fields)) (some given) start =
                  .ok (.view serial node, stop) := h
              exact construct_withChildren hmade hnode given' c
          | _ => cases hdata
      | _ => cases hdata

/-- The children of a node are those that its helper was given. -/
theorem callHelper_children_given {recur : Env → Tree → Eval Datum} {before after : List Datum}
    (hplace : Precede helper before)
    (hgiven : given.isData = false)
    (h : callHelper setting recur helper (before ++ given :: after) start =
      .ok (.view serial node, stop)) (hnode : node.encloses = true) :
    node.children = Datum.views node.holdsRaw given := by
  -- The same call makes the node with these children.
  have hsame : callHelper setting recur helper (before ++ given :: after) start =
      .ok (.view start (node.withChildren (Datum.views node.holdsRaw given)), start + 1) :=
    callHelper_withChildren hplace hgiven hgiven h hnode start
  rw [h] at hsame
  have hview : node = node.withChildren (Datum.views node.holdsRaw given) := by
    injection hsame with hpair
    injection hpair with hdatum
    injection hdatum
  rw [hview, View.children_withChildren hnode, ← hview]

theorem construct_not_text {children : Option Datum} {content : String} {raw : Bool}
    (h : construct setting tag data children start =
      .ok (.view serial (.text content raw), stop)) : False := by
  have hmade : ∀ {entry : Option Entry} {data : NodeData} {views : List View} {c : Nat},
      (match entry with
        | some (.component id) => made (.component id data)
        | some (.deferred id) => made (.deferred id data)
        | none => made (.element tag data views)) c ≠
          .ok (.view serial (.text content raw), stop) := by
    intro entry data views c h
    split at h <;> cases made_eq_ok h
  unfold construct at h
  cases data with
  | none => exact hmade h
  | some value =>
      obtain ⟨data, between, -, h⟩ := Eval.bind_eq_ok h
      exact hmade h

/-- A text that a helper makes is not raw. -/
theorem callHelper_not_raw {recur : Env → Tree → Eval Datum} {arguments : List Datum}
    {content : String} (hconstructs : helper.constructsNode = true)
    (h : callHelper setting recur helper arguments start =
      .ok (.view serial (.text content true), stop)) : False := by
  unfold callHelper at h
  split at h
  · exact construct_not_text h
  · exact construct_not_text h
  · exact construct_not_text h
  · cases h
  · cases made_eq_ok h
  · cases made_eq_ok h
  · cases hconstructs
  · cases hconstructs
  · cases hconstructs
  · cases made_eq_ok h
  · cases hconstructs

end Nodes

section Markup

variable {opening closing content text : String} {ts : List Tree} {views : List View}

/-- Calling a helper whose name no variable has taken. -/
theorem eval_ofCall {helper : Helper} {arguments : List Tree} {data : List Datum} {between : Nat}
    (hname : Env.get? env helper.name = none)
    (h : arguments.mapM (eval setting depth env) start = .ok (data, between)) :
    eval setting (depth + 1) env (.ofCall helper arguments) start =
      callHelper setting (eval setting depth) helper data between := by
  have hhelper : helper? env (.mk (.ident helper.name)) = .ok (some helper) := by
    simp only [helper?, hname, Option.isSome_none, Bool.false_eq_true, if_false,
      Helper.ofName?_name]
  change call setting (eval setting depth) env _ arguments start = _
  unfold call
  rw [hhelper]
  exact Eval.bind_of_ok h

theorem always_str (text : String) :
    Always setting env bound (depth + 1) (.mk (.str text)) (· = .str text) :=
  fun start _ => ⟨_, start, rfl, rfl, Nat.le_refl start⟩

/-- A literal is markup without children. -/
theorem always_literal (hname : Env.get? env Helper.markup.name = none) (text : String) :
    Always setting env bound (depth + 2) (.ofCall .markup [.mk (.str text)])
      (Datum.Shows (.fragment text "" [])) := by
  intro start _
  have harguments : [Tree.mk (.str text)].mapM (eval setting (depth + 1) env) start =
      .ok ([.str text], start) := rfl
  exact ⟨.view start (.fragment text "" []), start + 1, (eval_ofCall hname harguments).trans rfl,
    ⟨start, rfl⟩, Nat.le_succ start⟩

/-- A list of expressions that give views. -/
theorem always_array
    (h : List.Forall₂ (fun t view => Always setting env bound depth t (Datum.Shows view)) ts
      views) :
    Always setting env bound (depth + 1) (.mk (.array ts)) fun datum => datum.isData = false ∧
      ∀ raw, Datum.views raw datum = views.map (Datum.asChild raw) := by
  intro start hstart
  obtain ⟨items, stop, hitems, hshows, hle⟩ := Always.mapM h hstart
  refine ⟨.ofItems items, stop, ?_, ⟨Datum.isData_ofItems, Datum.views_of_shows hshows⟩, hle⟩
  change (ts.mapM (eval setting depth env) >>= fun items => pure (Datum.ofItems items)) start = _
  rw [Eval.bind_of_ok hitems]
  rfl

/-- Markup around children. -/
theorem always_fragment (hname : Env.get? env Helper.markup.name = none)
    (h : List.Forall₂ (fun t view => Always setting env bound depth t (Datum.Shows view)) ts views)
    (opening closing : String) :
    Always setting env bound (depth + 2)
      (.ofCall .markup [.mk (.str opening), .mk (.str closing), .mk (.array ts)])
      (Datum.Shows (.fragment opening closing (views.map (Datum.asChild false)))) := by
  intro start hstart
  obtain ⟨given, between, hgiven, ⟨-, hviews⟩, hle⟩ := always_array h start hstart
  have harguments :
      [Tree.mk (.str opening), .mk (.str closing), .mk (.array ts)].mapM
        (eval setting (depth + 1) env) start =
        .ok ([.str opening, .str closing, given], between) :=
    Eval.mapM_cons_of_ok rfl (Eval.mapM_cons_of_ok rfl (Eval.mapM_cons_of_ok hgiven rfl))
  refine ⟨.view between (.fragment opening closing (views.map (Datum.asChild false))),
    between + 1, (eval_ofCall hname harguments).trans ?_, ⟨between, rfl⟩,
    hle.trans (Nat.le_succ between)⟩
  rw [← hviews]
  rfl

/-- What is made of two expressions, of which one gives a text. -/
theorem always_joined {P Q : Datum → Prop} {left right whole : Tree}
    (hadd : ∀ first second, P first → Q second → add first second = .str text)
    (hleft : Always setting env bound depth left P)
    (hright : Always setting env bound depth right Q) (h : Arena.Joined left right whole) :
    Always setting env bound (depth + 1) whole (· = .str text) := by
  obtain ⟨operators, -, hsame⟩ := eval_joined h
  intro start hstart
  obtain ⟨first, between, hfirst, hP, hle⟩ :=
    hleft.deeper (Nat.le_add_right depth operators) start hstart
  obtain ⟨second, stop, hsecond, hQ, hle'⟩ :=
    hright.deeper (Nat.le_add_right depth operators) between (hstart.trans hle)
  refine ⟨add first second, stop, ?_, hadd first second hP hQ, hle.trans hle'⟩
  rw [hsame, Nat.add_right_comm, eval_sum, Eval.bind_of_ok hfirst, Eval.bind_of_ok hsecond]
  rfl

/-- A text between two literals. -/
theorem always_wrapped (hname : Env.get? env Helper.markup.name = none) {whole : Tree}
    (ht : Always setting env bound (depth + 1) t fun datum => datum.text = content)
    (h : Tree.IsWrapped opening t closing whole) :
    Always setting env bound (depth + 4) (.ofCall .markup [whole])
      (Datum.Shows (.fragment (opening ++ content ++ closing) "" [])) := by
  obtain ⟨start, hstart, hwhole⟩ := h
  have hfirst : Always setting env bound (depth + 2) start (· = .str (opening ++ content)) := by
    refine always_joined ?_ (always_str opening) ht hstart
    rintro first second rfl rfl
    exact add_str_left opening second
  have hsecond : Always setting env bound (depth + 3) whole
      (· = .str (opening ++ content ++ closing)) := by
    refine always_joined ?_ hfirst (always_str closing) hwhole
    rintro first second rfl rfl
    exact add_str_left _ _
  intro start hstart
  obtain ⟨_, between, heval, rfl, hle⟩ := hsecond start hstart
  have hargument : [whole].mapM (eval setting (depth + 3) env) start =
      .ok ([.str (opening ++ content ++ closing)], between) := Eval.mapM_cons_of_ok heval rfl
  exact ⟨.view between (.fragment (opening ++ content ++ closing) "" []), between + 1,
    (eval_ofCall hname hargument).trans rfl, ⟨between, rfl⟩, hle.trans (Nat.le_succ between)⟩

/-- The text that markup is made from. -/
theorem Always.markup_text (hname : Env.get? env Helper.markup.name = none)
    (henv : env.Older bound) {view : View}
    (h : Always setting env bound (depth + 1) (.ofCall .markup [t]) (Datum.Shows view)) :
    ∃ content, view = .fragment content "" [] ∧
      Always setting env bound depth t fun datum => datum.text = content := by
  obtain ⟨_, stop, heval, ⟨serial, rfl⟩, -⟩ := h bound (Nat.le_refl bound)
  obtain ⟨below, data, between, hdepth, hdata, hmade⟩ := eval_call hname heval
  cases hdepth
  obtain ⟨datum, _, rest, hdatum, hrest, rfl⟩ := Eval.mapM_cons_eq_ok hdata
  obtain ⟨rfl, -⟩ := Eval.pure_eq_ok hrest
  cases made_eq_ok hmade
  exact ⟨datum.text, rfl, of_text henv (Nat.le_refl bound) hdatum⟩

end Markup

section Children

variable {arena : Arena} {elements : List Id} {given : Datum}

/-- What the expressions of a list evaluate to, one after another. -/
theorem mapM_eval_from {ts : List Tree} {data : List Datum}
    (h : ts.mapM (eval setting depth env) start = .ok (data, stop)) :
    List.Forall₂ (fun t datum => ∃ c c', start ≤ c ∧
      eval setting depth env t c = .ok (datum, c')) ts data := by
  induction ts generalizing start data with
  | nil =>
      obtain ⟨rfl, -⟩ := Eval.pure_eq_ok h
      exact .nil
  | cons t ts ih =>
      obtain ⟨datum, between, rest, hfirst, hrest, rfl⟩ := Eval.mapM_cons_eq_ok h
      refine .cons ⟨start, between, Nat.le_refl start, hfirst⟩ ((ih hrest).imp ?_)
      rintro t datum ⟨c, c', hle, heval⟩
      exact ⟨c, c', (eval_le hfirst).trans hle, heval⟩

/-- What was evaluated once, one after another, can be evaluated again. -/
theorem always_of_mapM (henv : env.Older bound) (hstart : bound ≤ start) {ts : List Tree}
    {data : List Datum} (h : ts.mapM (eval setting depth env) start = .ok (data, stop)) :
    List.Forall₂ (fun t datum => Always setting env bound depth t (Datum.Alike bound datum)) ts
      data := by
  refine (mapM_eval_from h).imp ?_
  rintro t datum ⟨c, c', hle, heval⟩
  exact .of_eval henv (hstart.trans hle) heval

/-- A call that constructs a node gives its view again. -/
theorem always_nodeCall {element : Id} (henv : env.Older bound) (hstart : bound ≤ start)
    (hnames : ∀ helper : Helper, helper.constructsNode = true → Env.get? env helper.name = none)
    (htree : Arena.IsTree arena element) (hcall : arena.isNodeCall element = true)
    (h : eval setting depth env (arena.tree element) start = .ok (given, stop)) :
    ∃ view, Datum.Shows view given ∧
      Always setting env bound depth (arena.tree element) (Datum.Shows view) ∧
      ∀ content, view ≠ .text content true := by
  obtain ⟨helper, hhelper, hconstructs⟩ := (Option.any_eq_true _ _).mp hcall
  obtain ⟨serial, view, rfl⟩ := eval_nodeCall htree hcall hnames h
  refine ⟨view, ⟨serial, rfl⟩, .of_view henv hstart h, ?_⟩
  rintro content rfl
  rw [htree.tree_call hhelper] at h
  obtain ⟨below, data, between, -, -, h⟩ := eval_call (hnames helper hconstructs) h
  exact callHelper_not_raw hconstructs h

/-- The views in a list of calls that each construct a node. -/
theorem eval_elements (henv : env.Older bound) (hstart : bound ≤ start)
    (hnames : ∀ helper : Helper, helper.constructsNode = true → Env.get? env helper.name = none)
    (htrees : ∀ element ∈ elements, Arena.IsTree arena element)
    (hcalls : ∀ element ∈ elements, arena.isNodeCall element = true)
    (h : eval setting (depth + 1) env (.mk (.array (elements.map arena.tree))) start =
      .ok (given, stop)) :
    ∃ views, List.Forall₂ (fun element view =>
        Always setting env bound depth (arena.tree element) (Datum.Shows view) ∧
          ∀ content, view ≠ .text content true) elements views ∧
      given.isData = false ∧ ∀ raw, Datum.views raw given = views.map (Datum.asChild raw) := by
  obtain ⟨items, between, hitems, hlist⟩ := Eval.bind_eq_ok h
  obtain ⟨rfl, -⟩ := Eval.pure_eq_ok hlist
  suffices hviews : ∃ views, List.Forall₂ (fun element view =>
      Always setting env bound depth (arena.tree element) (Datum.Shows view) ∧
        ∀ content, view ≠ .text content true) elements views ∧
      List.Forall₂ Datum.Shows views items by
    obtain ⟨views, hall, hshows⟩ := hviews
    exact ⟨views, hall, Datum.isData_ofItems, Datum.views_of_shows hshows⟩
  have hall := List.forall₂_map_left_iff.mp (mapM_eval_from hitems)
  clear hitems hlist h
  induction hall with
  | nil => exact ⟨[], .nil, .nil⟩
  | cons hfirst _ ih =>
      obtain ⟨c, c', hle, heval⟩ := hfirst
      obtain ⟨htree, htrees⟩ := List.forall_mem_cons.mp htrees
      obtain ⟨hcall, hcalls⟩ := List.forall_mem_cons.mp hcalls
      obtain ⟨view, hshows, halways, hplain⟩ :=
        always_nodeCall henv (hstart.trans hle) hnames htree hcall heval
      obtain ⟨views, hrest, hitems⟩ := ih htrees hcalls
      exact ⟨view :: views, .cons ⟨halways, hplain⟩ hrest, .cons hshows hitems⟩

end Children

end Evaluator

end RenderFold
