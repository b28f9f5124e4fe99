import RenderFold.Proofs.Folding.FollowedLevels
import RenderFold.Proofs.Folding.RunMarkup

/-!
# Markup of a Folded Level

A node whose children are written out in its call is folded. Each static child
is known with its markup, and so is the start of the node if it is the same in
both passes. Whatever the node is rewritten into is evaluated like the node was
and amounts to the same, unless markup is put around children that were those
of an element with raw text. Then the markup stays exactly if there is nothing
to escape in the texts among them.

All that is needed of a child is the view that it gives. Neither what it is
under makes a difference nor what is evaluated before it.

## Main definitions

* `Program.Listed`: A call with its children written out.
* `Program.Suited`: What a call is evaluated among.
* `Evaluator.Remakes`: A call makes the same node around other children.
* `Evaluator.Produces`: An expression evaluates to a node with some markup.
* `Program.reframes`: Whether new markup is put around the children of a node.

## Theorems

* `Program.Listed.eval`: What a call with its children written out evaluates
  to.
* `Program.Listed.setChildren_produces`, `Program.Listed.enclose_produces`: A
  node with other children, and markup around them.
* `Program.foldLevel_markup_iff`: When a folded node keeps its markup.
-/

namespace RenderFold

open Script (Arena Id Tree)
open Script.Arena (Forest)
open Evaluator (Always Gives eval)

/-- A call with its children written out as a list of calls that each construct
    a node. -/
structure Program.Listed (arena : Arena) (slot list : Id) (elements : List Id) : Prop where
  forest : Forest Set.univ arena [slot]
  array : arena.childArray? slot = some list
  items : arena.elements? list = some elements
  nodes : ∀ element ∈ elements, arena.isNodeCall element = true

/-- The variables in sight of a call hold what was made before, none of them
    has the name of a helper that constructs a node, and if the list of children
    comes third in a call that makes an element, the second argument is data. -/
structure Program.Suited (arena : Arena) (slot list : Id) (setting : Setting) (env : Env)
    (depth start : Nat) : Prop where
  older : env.Older start
  names : ∀ helper : Helper, helper.constructsNode = true → Env.get? env helper.name = none
  data : arena.helper? slot = some .element →
    ∀ second given, (arena.arguments slot)[1]? = some second → second ≠ list →
      Gives setting depth env arena second given → given.isData = true

/-- With some expression in the place of its children, a call makes the same
    node around other children. -/
def Evaluator.Remakes (setting : Setting) (env : Env) (start below : Nat) (around : Tree → Tree)
    (node : View) : Prop :=
  ∀ {trees : List Tree} {views : List View} {deeper : Nat}, below ≤ deeper →
    List.Forall₂ (fun t view => Always setting env start deeper t (Datum.Shows view)) trees views →
    ∃ serial stop, eval setting (deeper + 2) env (around (.mk (.array trees))) start =
      .ok (.view serial (node.withChildren (views.map (Datum.asChild node.holdsRaw))), stop)

/-- A helper that has made a node around its children makes it again around
    others. What comes before the list is evaluated to the same. What comes
    after it has to be evaluated again, but makes no difference. -/
theorem Evaluator.remakes {setting : Setting} {env : Env} {helper : Helper}
    {start below c c' d between serial stop : Nat} {before after : List Tree}
    {front back : List Datum} {given : Datum} {node : View}
    (hname : Env.get? env helper.name = none) (henv : env.Older start)
    (hfront : before.mapM (eval setting (below + 1) env) start = .ok (front, c))
    (hc' : start ≤ c') (hback : after.mapM (eval setting (below + 1) env) c' = .ok (back, d))
    (hprecede : Precede helper front) (hdata : given.isData = false)
    (hmade : callHelper setting (eval setting (below + 1)) helper (front ++ given :: back) between =
      .ok (.view serial node, stop)) (hnode : node.encloses = true) :
    Remakes setting env start below (fun list => .ofCall helper (before ++ list :: after))
      node := by
  intro trees views deeper hdeeper hnew
  have hc := mapM_eval_le hfront
  have hfront' := Eval.Below.mapM (fun t => eval_below env t (Nat.succ_le_succ hdeeper)) before
    hfront
  obtain ⟨given', between', hgiven', ⟨hdata', hviews⟩, hle⟩ := always_array hnew c hc
  have hafter := (always_of_mapM henv hc' hback).imp fun _ _ h =>
    h.deeper (Nat.succ_le_succ hdeeper)
  obtain ⟨back', stop', hback', -, -⟩ := Always.mapM hafter (hc.trans hle)
  have hevaluated := Eval.mapM_append_of_ok hfront' (Eval.mapM_cons_of_ok hgiven' hback')
  refine ⟨stop', stop' + 1, (eval_ofCall hname hevaluated).trans ?_⟩
  rw [callHelper_withChildren hprecede hdata hdata' hmade hnode, hviews]

namespace Program

variable {arena : Arena} {slot list : Id} {elements : List Id} {setting : Setting} {env : Env}
  {depth start stop serial : Nat} {node : View} {helper : Helper} {before after : List Id}

open Evaluator (AlwaysChild Precede Remakes)

/-- What comes before the children, evaluated. -/
theorem Suited.precede (h : Suited arena slot list setting env depth start)
    (hholds : arena.HoldsList slot list helper before after) {below c : Nat}
    (hbelow : below ≤ depth) {front : List Datum}
    (hfront : (before.map arena.tree).mapM (Evaluator.eval setting below env) start =
      .ok (front, c)) : Precede helper front := by
  have hlength : front.length = before.length := by
    rw [← (Eval.mapM_eq_ok hfront).length_eq, List.length_map]
  rcases hholds.place with ⟨rfl, htwo⟩ | ⟨rfl, hone | ⟨tag, second, rfl, hne⟩⟩
  · exact Or.inl ⟨rfl, hlength.trans htwo⟩
  · exact Or.inr ⟨rfl, Or.inl (hlength.trans hone)⟩
  · obtain ⟨first, between, rest, -, hrest, rfl⟩ := Eval.mapM_cons_eq_ok hfront
    obtain ⟨given, stop, rest, hgiven, hnil, rfl⟩ := Eval.mapM_cons_eq_ok hrest
    obtain ⟨rfl, -⟩ := Eval.pure_eq_ok hnil
    refine Or.inr ⟨rfl, Or.inr ⟨first, given, rfl, ?_⟩⟩
    exact h.data hholds.helper_eq second given (by rw [hholds.arguments_eq]; rfl) hne
      ⟨between, stop, Evaluator.eval_below env _ hbelow hgiven⟩

/-- Each child of a node is given by its expression, and the node can be made
    around other children. -/
theorem Listed.eval (h : Listed arena slot list elements)
    (hsuited : Suited arena slot list setting env depth start)
    (hholds : arena.HoldsList slot list helper before after)
    (heval : Evaluator.eval setting depth env (arena.tree slot) start =
      .ok (.view serial node, stop)) (hnode : node.encloses = true) :
    ∃ below, depth = below + 2 ∧
      List.Forall₂ (fun element child =>
        AlwaysChild setting env start below node.holdsRaw (arena.tree element) child) elements
        node.children ∧
      Remakes setting env start below (arena.callAround helper before after) node := by
  have htree := h.forest.isTree List.mem_cons_self
  have hname := hsuited.names helper hholds.constructsNode
  rw [tree_of_holdsList htree hholds h.items] at heval
  obtain ⟨around, data, between, rfl, hdata, hmade⟩ := Evaluator.eval_call hname heval
  obtain ⟨front, c, rest, hfront, hrest, rfl⟩ := Eval.mapM_append_eq_ok hdata
  obtain ⟨given, c', back, hgiven, hback, rfl⟩ := Eval.mapM_cons_eq_ok hrest
  have hc := Evaluator.mapM_eval_le hfront
  obtain ⟨below, rfl⟩ : ∃ below, around = below + 1 := by
    cases around with
    | zero => cases hgiven
    | succ below => exact ⟨below, rfl⟩
  have htrees : ∀ element ∈ elements, Script.Arena.IsTree arena element := by
    intro element hmem
    refine (htree.part hholds.mem_children).part ?_
    rw [Script.Arena.get_of_elements? h.items]
    exact hmem
  obtain ⟨views, hall, hisData, hviews⟩ :=
    Evaluator.eval_elements hsuited.older hc hsuited.names htrees h.nodes hgiven
  have hprecede := hsuited.precede hholds (Nat.le_succ _) hfront
  have hchildren := Evaluator.callHelper_children_given hprecede hisData hmade hnode
  rw [hviews] at hchildren
  refine ⟨below, rfl, ?_, Evaluator.remakes hname hsuited.older hfront
    (hc.trans (Evaluator.eval_le hgiven)) hback hprecede hisData hmade hnode⟩
  rw [hchildren]
  refine List.forall₂_map_right_iff.mpr (hall.imp ?_)
  rintro element view ⟨halways, hplain⟩
  exact ⟨view, halways, hplain, rfl⟩

end Program

/-- From a serial number on, an expression evaluates to a node that amounts to
    some markup. -/
def Evaluator.Produces (engine : Engine) (functions : Component → Option RenderFunction)
    (cached : FactoryId → Option Resolution) (pass : Pass) (owner : Option Instance)
    (context : TagContext) (setting : Setting) (env : Env) (depth start : Nat) (t : Tree)
    (html : String) : Prop :=
  ∃ serial node stop, eval setting depth env t start = .ok (.view serial node, stop) ∧
    Amounts engine functions cached pass owner context [node] html

section Levels

variable {engine : Engine} {functions : Component → Option RenderFunction}
  {cached : FactoryId → Option Resolution} {pass : Pass} {owner : Option Instance}
  {context : TagContext} {setting : Setting} {env : Env} {depth depth' start stop serial : Nat}
  {t : Tree} {html html' content closing : String} {node : View} {children : List View}

open Evaluator (Produces Remakes)

theorem Evaluator.Produces.unique
    (h : Produces engine functions cached pass owner context setting env depth start t html)
    (h' : Produces engine functions cached pass owner context setting env depth start t html') :
    html = html' := by
  obtain ⟨serial, node, stop, heval, hhtml⟩ := h
  obtain ⟨serial', node', stop', heval', hhtml'⟩ := h'
  cases heval.symm.trans heval'
  exact hhtml.unique hhtml'

theorem Evaluator.Produces.deeper
    (h : Produces engine functions cached pass owner context setting env depth start t html)
    (hdepth : depth ≤ depth') :
    Produces engine functions cached pass owner context setting env depth' start t html := by
  obtain ⟨serial, node, stop, heval, hhtml⟩ := h
  exact ⟨serial, node, stop, eval_below env t hdepth heval, hhtml⟩

theorem Evaluator.Always.produces (h : Always setting env start depth t (Datum.Shows node))
    (hhtml : Amounts engine functions cached pass owner context [node] html) :
    Produces engine functions cached pass owner context setting env depth start t html := by
  obtain ⟨_, stop, heval, ⟨serial, rfl⟩, -⟩ := h start (Nat.le_refl start)
  exact ⟨serial, node, stop, heval, hhtml⟩

/-- A node around other children opens and closes like the node. -/
theorem Amounts.withChildren (hcloses : node.ClosesWith closing)
    (h : Amounts engine functions cached pass owner (.within owner) children content) :
    Amounts engine functions cached pass owner context [node.withChildren children]
      (node.opening engine context ++ content ++ closing) := by
  have hcloses' : (node.withChildren children).ClosesWith closing := by
    cases node <;> exact hcloses
  refine (Amounts.enclosing_iff hcloses').mpr ⟨content, ?_, ?_⟩
  · cases node <;> rfl
  · cases node with
    | element | fragment => exact h
    | _ => exact hcloses.elim

theorem View.ClosesWith.encloses (h : node.ClosesWith closing) : node.encloses = true := by
  cases node with
  | element | fragment => rfl
  | _ => exact h.elim

namespace Program

variable {program : Program} {arena : Arena} {slot list : Id} {elements : List Id}
  {runs : List Run} {below : Nat} {helper : Helper} {before after : List Id}

/-- The children do not have the call itself below them. -/
theorem Listed.apart (h : Listed arena slot list elements) :
    Forest {x | x ≠ slot} arena elements := elements_apart h.forest h.array h.items

/-- A node that is rewritten into a literal. -/
theorem becomeLiteral_produces (hlt : slot < arena.size)
    (hname : Env.get? env Helper.markup.name = none) (text : String) :
    Produces engine functions cached pass owner context setting env (below + 2) start
      ((arena.becomeLiteral slot text).tree slot) text := by
  rw [Script.Arena.tree_becomeLiteral hlt]
  exact (Evaluator.always_literal hname text).produces (Amounts.literal_iff.mpr rfl)

/-- A node that keeps its place and gets other children. -/
theorem Listed.setChildren_produces (h : Listed arena slot list elements)
    (hholds : arena.HoldsList slot list helper before after)
    (hremakes : Remakes setting env start below (arena.callAround helper before after) node)
    (hname : Env.get? env Helper.markup.name = none) (hcloses : node.ClosesWith closing)
    (hruns : (runSlots runs).Sublist elements)
    (hamount : Run.Amount (Piece engine functions cached pass owner (.within owner) setting env
      start below arena.tree node.holdsRaw) runs content) :
    Produces engine functions cached pass owner context setting env (below + 4) start
      ((setChildren arena slot runs).tree slot)
      (node.opening engine context ++ content ++ closing) := by
  obtain ⟨views, hviews, hhtml⟩ := hamount.views hname
  obtain ⟨serial, stop, hnew⟩ := hremakes (Nat.le_add_right below 2) hviews
  rw [setChildren_tree h.forest h.array h.items hholds hruns]
  exact ⟨serial, _, stop, hnew, hhtml.withChildren hcloses⟩

/-- A node that is replaced by markup around its children. -/
theorem Listed.enclose_produces (h : Listed arena slot list elements)
    (henv : env.Older start) (hname : Env.get? env Helper.markup.name = none)
    (hruns : (runSlots runs).Sublist elements)
    (hamount : Run.Amount (Piece engine functions cached pass owner (.within owner) setting env
      start below arena.tree false) runs content) (opening closing : String) :
    Produces engine functions cached pass owner context setting env (below + 5) start
      ((enclose (pushRuns arena runs).2 slot opening closing (pushRuns arena runs).1).tree slot)
      (opening ++ content ++ closing) := by
  obtain ⟨views, hviews, hhtml⟩ := hamount.views hname
  have hlt := (h.forest.mem List.mem_cons_self).2
  obtain ⟨hext, hpushed, htrees⟩ := pushRuns_apart hlt (h.apart.subperm hruns.subperm)
  rcases enclose_tree (hlt.trans_le hext.1) hpushed opening closing with
    htree | ⟨text, whole, hsingle, hwrapped, htree⟩
  · rw [htree, htrees]
    have hcloses : (View.fragment opening closing (views.map (Datum.asChild false))).ClosesWith
        closing := rfl
    exact ((Evaluator.always_fragment hname hviews opening closing).produces
      ((Amounts.enclosing_iff hcloses).mpr ⟨content, rfl, hhtml⟩)).deeper (Nat.le_succ _)
  -- A single text is taken out of the call around it.
  · rw [htrees] at hsingle
    rw [hsingle] at hviews
    cases hviews with
    | cons hview hnil =>
        cases hnil
        obtain ⟨other, rfl, htext⟩ := hview.markup_text hname henv
        obtain rfl := Amounts.literal_iff.mp hhtml
        rw [htree]
        exact ((Evaluator.always_wrapped hname htext hwrapped).produces
          (Amounts.literal_iff.mpr rfl)).deeper (Nat.le_succ _)

/-- Whether new markup is put around the children of a node that is not
    static. -/
def reframes (program : Program) (slot : Id) : Bool :=
  !program.findings.isStatic slot && (program.findings.text? slot).isSome &&
    !program.findings.isUnmatched slot

/-- What folding a level does to any arena is decided by the findings. It does
    nothing, or the node becomes a literal, gets other children, or is replaced
    by markup around them. -/
theorem foldLevel_acts (program : Program) (slot : Id) (closing : String) (slots : List Id) :
    ((∀ arena, { program with arena }.foldLevel slot closing slots = { program with arena }) ∧
      program.reframes slot = false) ∨
    (∃ opening text, program.findings.isStatic slot = false ∧
      program.findings.text? slot = some opening ∧
      Run.literal? (program.findings.runs slots) = some text ∧
      ∀ arena, { program with arena }.foldLevel slot closing slots =
        { program with arena }.foldToLiteral slot (opening ++ text ++ closing)) ∨
    (∃ runs, (runs = program.findings.runs slots ∨ ∃ text,
        Run.literal? (program.findings.runs slots) = some text ∧ runs = [.literal text]) ∧
      (∀ arena, { program with arena }.foldLevel slot closing slots =
        { program with arena := setChildren arena slot runs }) ∧
      program.reframes slot = false) ∨
    (∃ opening, program.findings.isStatic slot = false ∧
      program.findings.text? slot = some opening ∧
      Run.literal? (program.findings.runs slots) = none ∧
      (∀ arena, { program with arena }.foldLevel slot closing slots =
        { program with arena := (enclose (pushRuns arena (program.findings.runs slots)).2 slot
            opening closing (pushRuns arena (program.findings.runs slots)).1) }) ∧
      program.reframes slot = true) := by
  unfold reframes
  cases hstill : program.findings.isStatic slot with
  | true => exact Or.inl ⟨fun _ => by simp only [foldLevel, hstill, if_true], rfl⟩
  | false =>
      have hfold (arena : Arena) := foldLevel.eq_def { program with arena } slot closing slots
      simp only [hstill, Bool.false_eq_true, if_false] at hfold
      cases htext : program.findings.text? slot with
      | none =>
          rw [Option.isSome_none, Bool.and_false, Bool.false_and]
          cases hunmatched : program.findings.isUnmatched slot <;>
            cases hliteral : Run.literal? (program.findings.runs slots) <;>
            simp only [htext, hliteral, hunmatched, Bool.false_eq_true, if_false, if_true] at hfold
          · exact Or.inr (Or.inr (Or.inl ⟨_, Or.inl rfl, hfold, rfl⟩))
          · exact Or.inr (Or.inr (Or.inl ⟨_, Or.inr ⟨_, rfl, rfl⟩, hfold, rfl⟩))
          · exact Or.inl ⟨hfold, rfl⟩
          · exact Or.inl ⟨hfold, rfl⟩
      | some opening =>
          cases hliteral : Run.literal? (program.findings.runs slots) with
          | some text =>
              simp only [htext, hliteral] at hfold
              exact Or.inr (Or.inl ⟨opening, text, rfl, rfl, rfl, hfold⟩)
          | none =>
              cases hunmatched : program.findings.isUnmatched slot <;>
                simp only [htext, hliteral, hunmatched, Bool.false_eq_true, if_false,
                  if_true] at hfold
              · exact Or.inr (Or.inr (Or.inr ⟨opening, rfl, rfl, rfl, hfold, rfl⟩))
              · exact Or.inl ⟨hfold, rfl⟩

/-- What folding a level does to the arena. -/
theorem foldLevel_edits (program : Program) (slot : Id) (closing : String) (slots : List Id) :
    ((program.foldLevel slot closing slots).arena = program.arena ∧
      program.reframes slot = false) ∨
    (∃ opening text, program.findings.isStatic slot = false ∧
      program.findings.text? slot = some opening ∧
      Run.literal? (program.findings.runs slots) = some text ∧
      (program.foldLevel slot closing slots).arena =
        program.arena.becomeLiteral slot (opening ++ text ++ closing)) ∨
    (∃ runs, (runs = program.findings.runs slots ∨ ∃ text,
        Run.literal? (program.findings.runs slots) = some text ∧ runs = [.literal text]) ∧
      (program.foldLevel slot closing slots).arena = setChildren program.arena slot runs ∧
      program.reframes slot = false) ∨
    (∃ opening, program.findings.isStatic slot = false ∧
      program.findings.text? slot = some opening ∧
      (program.foldLevel slot closing slots).arena =
        enclose (pushRuns program.arena (program.findings.runs slots)).2 slot opening closing
          (pushRuns program.arena (program.findings.runs slots)).1 ∧
      program.reframes slot = true) := by
  rcases foldLevel_acts program slot closing slots with ⟨hact, hreframes⟩ |
    ⟨opening, text, hstill, htext, hliteral, hact⟩ | ⟨runs, hruns, hact, hreframes⟩ |
    ⟨opening, hstill, htext, -, hact, hreframes⟩
  · exact Or.inl ⟨congrArg arena (hact program.arena), hreframes⟩
  · exact Or.inr (Or.inl ⟨opening, text, hstill, htext, hliteral,
      congrArg arena (hact program.arena)⟩)
  · exact Or.inr (Or.inr (Or.inl ⟨runs, hruns, congrArg arena (hact program.arena), hreframes⟩))
  · exact Or.inr (Or.inr (Or.inr ⟨opening, hstill, htext, congrArg arena (hact program.arena),
      hreframes⟩))

/-- Folding a node whose children are written out in its call. The call is
    evaluated again, and it amounts to what the node amounted to unless new
    markup is put around texts that were raw and have something to escape in
    them. -/
theorem foldLevel_markup_iff (h : Listed program.arena slot list elements)
    (hsuited : Suited program.arena slot list setting env depth start)
    (heval : Evaluator.eval setting depth env (program.arena.tree slot) start =
      .ok (.view serial node, stop)) (hcloses : node.ClosesWith closing)
    (hopening : program.findings.isStatic slot = false → ∀ text,
      program.findings.text? slot = some text → text = node.opening engine context)
    (hstatic : ∀ pair ∈ elements.zip node.children, ∀ text,
      Findings.literal? program.findings pair.1 = some text → ∀ html,
        Amounts engine functions cached pass owner (.within owner) [pair.2] html → html = text)
    (hhtml : Amounts engine functions cached pass owner context [node] html) :
    ∃ html', Produces engine functions cached pass owner context setting env (depth + 3) start
        ((program.foldLevel slot closing elements).arena.tree slot) html' ∧
      (html' = html ↔ (program.reframes slot = true →
        program.findings.Unescaped elements node.children)) := by
  have hsame : Produces engine functions cached pass owner context setting env (depth + 3) start
      (program.arena.tree slot) html :=
    Produces.deeper ⟨serial, node, stop, heval, hhtml⟩ (Nat.le_add_right depth 3)
  obtain ⟨content, rfl, hcontent⟩ := (Amounts.enclosing_iff hcloses).mp hhtml
  have hname := hsuited.names .markup rfl
  have hruns := runSlots_runs_sublist program.findings elements
  obtain ⟨helper, before, after, hholds⟩ := Script.Arena.holdsList_of_childArray? h.array
  obtain ⟨below, rfl, hchildren, hremakes⟩ := h.eval hsuited hholds heval hcloses.encloses
  -- The runs amount to what the children do. With their texts escaped they do so if
  -- there is nothing to escape in them.
  obtain ⟨kept, hkept, hraw⟩ := Findings.runs_amount hchildren id hstatic hcontent
  obtain ⟨escaped, hescaped, hgrown⟩ := Findings.runs_amount hchildren
    (fun hfalse : false = true => nomatch hfalse) hstatic hcontent
  obtain rfl : kept = content :=
    hraw.2.mpr fun hfalse => Findings.unescaped_of_not_raw (hfalse ▸ hchildren)
  rcases foldLevel_edits program slot closing elements with
    ⟨harena, hframes⟩ | ⟨opening, text, hstill, htext, hliteral, harena⟩ |
    ⟨runs, hchoice, harena, hframes⟩ | ⟨opening, hstill, htext, harena, hframes⟩
  · rw [harena, hframes]
    exact ⟨_, hsame, iff_of_true rfl fun hfalse => nomatch hfalse⟩
  · -- All children are static, so none of them is left to be escaped.
    obtain rfl := hopening hstill opening htext
    obtain rfl := hkept.eq_of_literal? hliteral
    obtain rfl := hescaped.eq_of_literal? hliteral
    rw [harena]
    exact ⟨_, (becomeLiteral_produces (h.forest.mem List.mem_cons_self).2 hname _).deeper
      (Nat.le_add_left _ _), iff_of_true rfl fun _ => hgrown.2.mp rfl rfl⟩
  · obtain ⟨hamount, hruns⟩ : Run.Amount (Piece engine functions cached pass owner (.within owner)
        setting env start below program.arena.tree node.holdsRaw) runs kept ∧
        (runSlots runs).Sublist elements := by
      rcases hchoice with rfl | ⟨text, hliteral, rfl⟩
      · exact ⟨hkept, hruns⟩
      · obtain rfl := hkept.eq_of_literal? hliteral
        exact ⟨.single kept, List.nil_sublist elements⟩
    rw [harena, hframes]
    exact ⟨_, (h.setChildren_produces hholds hremakes hname hcloses hruns hamount).deeper
      (Nat.le_succ _), iff_of_true rfl fun hfalse => nomatch hfalse⟩
  · obtain rfl := hopening hstill opening htext
    rw [harena, hframes]
    exact ⟨_, h.enclose_produces hsuited.older hname hruns hescaped _ closing,
      (hgrown.surround _ closing).2.trans ⟨fun hall _ => hall rfl, fun hall _ => hall rfl⟩⟩

end Program

end Levels

namespace Program

open Evaluator (Produces)

/-- An element around a text that depends on the scope and one that is static.
    Its start tag is known. -/
def exclaimed (tag : String) : Program where
  arena := ⟨#[.ident "_c", .str tag, .ident "_v", .ident "name", .call 2 [3], .ident "_v",
    .str "!", .call 5 [6], .array [4, 7], .call 0 [1, 8]]⟩
  findings := Findings.markStatic (Findings.setText [] 9 ("<" ++ tag ++ ">")) 7 "!"

theorem exclaimed_listed (tag : String) : Listed (exclaimed tag).arena 9 8 [4, 7] where
  forest := by
    -- Each node is found with what is below it, from the innermost ones on.
    have hnode {id : Id} {below : List Id} (hlt : id < 10) (h : Script.Arena.Spans
        (exclaimed tag).arena ((exclaimed tag).arena.get id).children below) :
        Script.Arena.Spans (exclaimed tag).arena [id] (id :: below) :=
      Script.Arena.Spans.single_iff.mpr ⟨below, hlt, h, rfl⟩
    have hleaf {id : Id} (hlt : id < 10) (h : ((exclaimed tag).arena.get id).children = []) :
        Script.Arena.Spans (exclaimed tag).arena [id] [id] := hnode hlt (by rw [h]; exact .nil)
    have htext := @hnode 4 _ (by decide)
      ((@hleaf 2 (by decide) rfl).append (@hleaf 3 (by decide) rfl))
    have hstatic := @hnode 7 _ (by decide)
      ((@hleaf 5 (by decide) rfl).append (@hleaf 6 (by decide) rfl))
    have hlist := @hnode 8 _ (by decide) (htext.append hstatic)
    have hcall := @hnode 9 _ (by decide)
      ((@hleaf 0 (by decide) rfl).append ((@hleaf 1 (by decide) rfl).append hlist))
    exact ⟨_, hcall, by decide, fun _ _ => trivial⟩
  array := rfl
  items := rfl
  nodes := by
    intro element hmem
    simp only [List.mem_cons, List.not_mem_nil, or_false] at hmem
    rcases hmem with rfl | rfl <;> rfl

/-- The variables in sight of a call that makes an element out of a tag and a
    list of children. -/
theorem exclaimed_suited (tag : String) (setting : Setting) (depth start : Nat) :
    Suited (exclaimed tag).arena 9 8 setting [[]] depth start where
  older locals hlocals entry hentry := by
    rw [List.mem_singleton.mp hlocals] at hentry
    exact absurd hentry List.not_mem_nil
  names _ _ := rfl
  data _ second given hsecond hne := by
    cases hsecond
    exact absurd rfl hne

section Exclaimed

variable {engine : Engine} {functions : Component → Option RenderFunction}
  {cached : FactoryId → Option Resolution} {pass : Pass} {owner : Option Instance}
  {context : TagContext} {tag closing markup html : String} {raw : Bool}

theorem exclamation : (View.text "!" raw).textMarkup? = some "!" := by
  cases raw <;> decide

/-- The markup of such an element. -/
theorem exclaimed_amounts (hend : Markup.endTag? tag = some closing)
    (hmarkup : (View.text "<ada>" raw).textMarkup? = some markup)
    (hhtml : engine.registry.startTag tag .empty context ++ (markup ++ "!") ++ closing = html) :
    Amounts engine functions cached pass owner context
      [.element tag .empty [.text "<ada>" raw, .text "!" raw]] html := by
  have hcloses : (View.element tag .empty [.text "<ada>" raw, .text "!" raw]).ClosesWith closing :=
    ⟨hend, rfl⟩
  rw [← hhtml]
  exact (Amounts.enclosing_iff hcloses).mpr ⟨_, rfl, Amounts.cons_iff.mpr ⟨markup, "!", rfl,
    (Amounts.text_iff hmarkup).mpr rfl, (Amounts.text_iff exclamation).mpr rfl⟩⟩

/-- The static text is known with its markup. -/
theorem exclaimed_static : ∀ pair ∈ [4, 7].zip [View.text "<ada>" raw, .text "!" raw],
    ∀ text, Findings.literal? (exclaimed tag).findings pair.1 = some text → ∀ html,
      Amounts engine functions cached pass owner context [pair.2] html → html = text := by
  refine List.forall_mem_cons.mpr ⟨?_, List.forall_mem_singleton.mpr ?_⟩
  · intro text hliteral
    cases hliteral
  · intro text hliteral html hhtml
    cases hliteral
    exact (Amounts.text_iff exclamation).mp hhtml

end Exclaimed

/-- A paragraph keeps its markup. -/
theorem foldLevel_markup_paragraph :
    Produces (Walk.engineOf (Component.named "page")) (fun _ => none) (fun _ => none) .dynamic none
      .empty ⟨"page", [("name", .str "<ada>")], [], []⟩ [[]] 7 0
      (((exclaimed "p").foldLevel 9 "</p>" [4, 7]).arena.tree 9) "<p>&lt;ada&gt;!</p>" := by
  obtain ⟨html, hrenders, hsame⟩ := @foldLevel_markup_iff
    (Walk.engineOf (Component.named "page")) (fun _ => none) (fun _ => none) .dynamic none .empty
    ⟨"page", [("name", .str "<ada>")], [], []⟩ [[]] 4 0 3 2 "<p>&lt;ada&gt;!</p>" "</p>"
    (.element "p" .empty [.text "<ada>" false, .text "!" false]) (exclaimed "p") 9 8 [4, 7]
    (exclaimed_listed "p") (exclaimed_suited "p" _ _ _) rfl ⟨rfl, rfl⟩
    (fun _ text htext => by cases htext; rfl) exclaimed_static
    (exclaimed_amounts rfl rfl (by decide))
  rw [← hsame.mpr fun _ => ?_]
  · exact hrenders
  · refine List.forall_mem_cons.mpr ⟨?_, List.forall_mem_singleton.mpr ?_⟩
    · rintro - content ⟨⟩
    · rintro - content ⟨⟩

/-- Folding a level need not keep the markup of the node. -/
theorem foldLevel_script : ¬ ∀ (engine : Engine) (functions : Component → Option RenderFunction)
    (cached : FactoryId → Option Resolution) (pass : Pass) (owner : Option Instance)
    (context : TagContext) (setting : Setting) (env : Env) (depth start stop serial : Nat)
    (html closing : String) (node : View) (program : Program) (slot list : Id)
    (elements : List Id),
    Listed program.arena slot list elements →
    Suited program.arena slot list setting env depth start →
    Evaluator.eval setting depth env (program.arena.tree slot) start =
      .ok (.view serial node, stop) →
    node.ClosesWith closing →
    (∀ text, program.findings.text? slot = some text → text = node.opening engine context) →
    (∀ pair ∈ elements.zip node.children, ∀ text,
      Findings.literal? program.findings pair.1 = some text → ∀ html,
        Amounts engine functions cached pass owner (.within owner) [pair.2] html → html = text) →
    Amounts engine functions cached pass owner context [node] html →
    ∃ depth', Produces engine functions cached pass owner context setting env depth' start
      ((program.foldLevel slot closing elements).arena.tree slot) html := by
  intro hall
  obtain ⟨depth, hsame⟩ := hall (Walk.engineOf (Component.named "page")) (fun _ => none)
    (fun _ => none) .dynamic none .empty ⟨"page", [("name", .str "<ada>")], [], []⟩ [[]] 4 0 3 2
    "<script><ada>!</script>" "</script>"
    (.element "script" .empty [.text "<ada>" true, .text "!" true]) (exclaimed "script") 9 8 [4, 7]
    (exclaimed_listed "script") (exclaimed_suited "script" _ _ _) rfl ⟨rfl, rfl⟩
    (fun text htext => by cases htext; rfl) exclaimed_static
    (exclaimed_amounts rfl rfl (by decide))
  -- In markup around the texts they are escaped.
  have hescaped : Produces (Walk.engineOf (Component.named "page")) (fun _ => none) (fun _ => none)
      .dynamic none .empty ⟨"page", [("name", .str "<ada>")], [], []⟩ [[]] 4 0
      (((exclaimed "script").foldLevel 9 "</script>" [4, 7]).arena.tree 9)
      "<script>&lt;ada&gt;!</script>" := by
    have hcloses : (View.fragment "<script>" "</script>"
        [.text "<ada>" false, .fragment "!" "" []]).ClosesWith "</script>" := rfl
    refine ⟨2, _, 3, rfl, (Amounts.enclosing_iff hcloses).mpr ⟨"&lt;ada&gt;!", by decide, ?_⟩⟩
    exact Amounts.cons_iff.mpr ⟨"&lt;ada&gt;", "!", by decide,
      (Amounts.text_iff (by decide)).mpr rfl, Amounts.literal_iff.mpr rfl⟩
  have hequal := (hsame.deeper (Nat.le_max_left depth 4)).unique
    (hescaped.deeper (Nat.le_max_right depth 4))
  exact absurd hequal (by decide)

end Program

end RenderFold
