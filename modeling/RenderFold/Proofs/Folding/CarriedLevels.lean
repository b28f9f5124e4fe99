import RenderFold.Proofs.Folding.Carried
import RenderFold.Proofs.Folding.LevelMarkup
import RenderFold.Proofs.Folding.Moves

/-!
# Levels That Are Carried Over

Folding the level of a node keeps the markup of the node if every child that is
not static keeps its own. It does not matter whether the node keeps its call,
with other children in the list, or gives way to markup around them.

## Theorems

* `Findings.runs_pieces`: Runs amount to what the children do.
* `Keeps.setChildren`, `Keeps.enclose`: A node with other children, and markup
  around them.
* `Keeps.foldLevel`: A node whose level is folded.
-/

namespace RenderFold

open Script (Arena Id Tree)
open Script.Arena (Extends Follows Forest)
open Evaluator (Always AlwaysChild Remakes)

section Runs

variable {engine : Engine} {functions : Component → Option RenderFunction}
  {cached : FactoryId → Option Resolution} {pass : Pass} {owner : Option Instance}
  {context : TagContext} {findings : Findings} {elements : List Id} {children : List View}
  {html : String} {piece : Id → String → Prop}

/-- What is known about a child: the markup of one that is static, and that
    another one is worth its markup. -/
def Findings.Knows (engine : Engine) (functions : Component → Option RenderFunction)
    (cached : FactoryId → Option Resolution) (pass : Pass) (owner : Option Instance)
    (context : TagContext) (findings : Findings) (piece : Id → String → Prop) (slot : Id)
    (child : View) : Prop :=
  ∀ html, Amounts engine functions cached pass owner context [child] html →
    (∀ text, findings.literal? slot = some text → html = text) ∧
      (findings.literal? slot = none → piece slot html)

/-- Runs amount to what the children do. -/
theorem Findings.runs_pieces
    (h : List.Forall₂ (findings.Knows engine functions cached pass owner context piece) elements
      children)
    (hhtml : Amounts engine functions cached pass owner context children html) :
    Run.Amount piece (findings.runs elements) html := by
  induction h generalizing html with
  | nil =>
      obtain rfl := Amounts.nil_iff.mp hhtml
      exact .nil
  | @cons element child elements children hknows _ ih =>
      obtain ⟨first, later, rfl, hfirst, hlater⟩ := Amounts.cons_iff.mp hhtml
      obtain ⟨hstatic, hpiece⟩ := hknows first hfirst
      cases hliteral : findings.literal? element with
      | some text =>
          rw [Findings.runs_cons_of_some hliteral, hstatic text hliteral]
          exact (ih hlater).prepend text
      | none =>
          rw [Findings.runs_cons_of_none hliteral]
          exact .child (hpiece hliteral) (ih hlater)

end Runs

section Levels

variable {engine : Engine} {functions : Component → Option RenderFunction}
  {owner : Option Instance} {context : TagContext} {scene : Scene} {depth : Nat} {raw raw' : Bool}
  {arena after last : Arena} {calls : List (Id × FoldedTree)} {slot : Id} {html content : String}
  {marked : Set Id} {entry : FoldedTree} {runs : List Run} {node : View} {closing : String}
  {children : List View}

theorem View.ClosesWith.withChildren (h : node.ClosesWith closing) (children : List View) :
    (node.withChildren children).ClosesWith closing ∧
      (∀ engine context, (node.withChildren children).opening engine context =
        node.opening engine context) ∧
      (node.withChildren children).children = children := by
  cases node with
  | element | fragment => exact ⟨h, fun _ _ => rfl, rfl⟩
  | _ => exact h.elim

/-- A node that is written around its children, wherever it is moved to. -/
theorem Yields.of_enclosing {t : Tree} (hcloses : node.ClosesWith closing)
    (halways : Always scene.setting scene.env scene.start depth t (Datum.Shows node))
    (hserves : Serves engine functions (some entry) owner (.within owner) node.children content)
    (hprintable : t.Printable) :
    Yields engine functions owner context scene depth raw entry t
      (node.opening engine context ++ content ++ closing) := by
  refine ⟨node, halways, ?_, fun raw' _ => ?_, hprintable⟩
  · rintro content rfl
    exact hcloses
  · cases node with
    | element | fragment => exact .enclosing hcloses hserves
    | _ => exact hcloses.elim

/-- What has become of the children among runs, and of new literals, is written
    as the runs amount to. -/
theorem Run.Amount.become (raw' : Bool)
    (h : Run.Amount (Keeps engine functions owner context scene depth raw arena calls) runs content)
    (hname : Env.get? scene.env Helper.markup.name = none) (hraw : raw' = true → raw = true)
    (hsize : arena.size ≤ last.size) (hsmall : entry.Small)
    (hfollows : ∀ x ∈ Program.runSlots runs, Follows arena last marked x)
    (hdirects : ∀ x ∈ Program.runSlots runs, ∀ call ∈ marked, ∀ path, arena.Path x path call →
      Directs entry calls arena last call) :
    ∃ views, List.Forall₂ (fun t view =>
        Always scene.setting scene.env scene.start (depth + 2) t (Datum.Shows view))
        (Run.trees last.tree runs) views ∧
      Serves engine functions (some entry) owner context (views.map (Datum.asChild raw')) content ∧
      ∀ t ∈ Run.trees last.tree runs, t.Printable := by
  induction h with
  | nil => exact ⟨[], .nil, .nil, fun _ ht => absurd ht List.not_mem_nil⟩
  | @literal rest html text hrest ih =>
      obtain ⟨views, halways, hserves, hprintable⟩ := ih hfollows hdirects
      rw [Run.trees]
      split
      · next htext =>
          subst htext
          rw [String.empty_append]
          exact ⟨views, halways, hserves, hprintable⟩
      · exact ⟨.fragment text "" [] :: views,
          .cons (Evaluator.always_literal hname text) halways, .cons (.literal text) hserves,
          List.forall_mem_cons.mpr ⟨.literal text, hprintable⟩⟩
  | @child slot rest first later hfirst hrest ih =>
      obtain ⟨hslot, hfollows⟩ := List.forall_mem_cons.mp hfollows
      obtain ⟨hcalls, hdirects⟩ := List.forall_mem_cons.mp hdirects
      obtain ⟨view, hview, -, hserve, hprint⟩ := hfirst.become hsize hslot hsmall hcalls
      obtain ⟨views, halways, hserves, hprintable⟩ := ih hfollows hdirects
      exact ⟨view :: views, .cons hview halways, .cons (hserve raw' hraw) hserves,
        List.forall_mem_cons.mpr ⟨hprint, hprintable⟩⟩

/-- A call that was numbered when something had been done elsewhere. -/
theorem Directs.earlier {x : Id} (h : Directs entry calls after last x)
    (hgrounded : arena.Grounded x) (hsize : arena.size ≤ after.size)
    (hsame : ∀ path y, arena.Path x path y → after.get y = arena.get y) :
    Directs entry calls arena last x := by
  obtain ⟨child, i, hmem, hchild, hstamped⟩ := h
  exact ⟨child, i, hmem, hchild, hstamped.earlier hgrounded hsize hsame⟩

section Call

variable {list : Id} {elements before back : List Id} {helper : Helper} {opening : String}

/-- The calls that are numbered later and stand below a call stand below its
    children. -/
def Program.Within (arena : Arena) (slot : Id) (elements : List Id)
    (calls : List (Id × FoldedTree)) : Prop :=
  ∀ call ∈ calls, call.1 < arena.size ∧ ∀ path, arena.Path slot path call.1 →
    ∃ element ∈ elements, ∃ path, arena.Path element path call.1

theorem Program.Within.of_directs (h : Program.Within arena slot elements calls)
    (hdirects : ∀ call ∈ marked, Directs entry calls after last call) :
    (∀ x ∈ marked, x < arena.size ∧ last.Grounded x) ∧
      ∀ x ∈ marked, ∀ path, arena.Path slot path x →
        ∃ element ∈ elements, ∃ path, arena.Path element path x := by
  refine ⟨fun x hx => ?_, fun x hx => ?_⟩
  · obtain ⟨child, i, hmem, -, hstamped⟩ := hdirects x hx
    exact ⟨(h _ hmem).1, hstamped.grounded⟩
  · obtain ⟨child, i, hmem, -⟩ := hdirects x hx
    exact (h _ hmem).2

/-- A call with a list of children is not made of a single text. -/
theorem Program.textArgument?_of_holdsList (hholds : arena.HoldsList slot list helper before back) :
    arena.textArgument? slot = none := by
  cases htext : arena.textArgument? slot with
  | none => rfl
  | some argument =>
      obtain ⟨hhelper, harguments⟩ := Script.Arena.textArgument?_eq_some htext
      rw [hholds.helper_eq] at hhelper
      rw [hholds.arguments_eq] at harguments
      have hlength := congrArg List.length harguments
      rw [List.length_append, List.length_cons, List.length_singleton] at hlength
      rcases hholds.place with ⟨-, htwo⟩ | ⟨rfl, -⟩
      · omega
      · cases hhelper

/-- A node that keeps its call and gets other children. -/
theorem Keeps.setChildren (hsettled : scene.Settled) (hforest : Forest Set.univ arena [slot])
    (hlist : arena.childArray? slot = some list)
    (hitems : arena.elements? list = some elements)
    (hholds : arena.HoldsList slot list helper before back)
    (hremakes : Remakes scene.setting scene.env scene.start depth
      (arena.callAround helper before back) node)
    (hprintable : ∀ x ∈ before ++ back, (arena.tree x).Printable)
    (hcloses : node.ClosesWith closing) (hcalls : Program.Within arena slot elements calls)
    (hruns : (Program.runSlots runs).Sublist elements)
    (hamount : Run.Amount (Keeps engine functions owner (.within owner) scene depth node.holdsRaw
      arena calls) runs content) :
    Keeps engine functions owner context scene (depth + 2) raw
      (Program.setChildren arena slot runs) calls slot
      (node.opening engine context ++ content ++ closing) := by
  have hkeeps := Program.setChildren_keepsForests hlist hitems hruns
  obtain ⟨callee, hcall, -⟩ := Script.Arena.call_of_helper? hholds.helper_eq
  obtain ⟨hne, hlt, hbeside⟩ := Program.parts_apart hforest hitems hholds hcall
  obtain ⟨-, hset, hsame⟩ := Program.setChildren_get hforest hlist hitems hholds hruns
  refine ⟨((hkeeps.forest hforest).isTree List.mem_cons_self).grounded, fun argument htext => ?_,
    fun last marked entry hsize hfollows hsmall hdirects => ?_⟩
  · -- The call is what it was, but for its list.
    have hslot := hsame slot (hforest.mem List.mem_cons_self).2 hne.symm
    have hnames : ∀ x ∈ (arena.get slot).children, ∀ name,
        (Program.setChildren arena slot runs).get x = .ident name ↔ arena.get x = .ident name := by
      intro x hx name
      by_cases hx' : x = list
      · rw [hx', hset, Script.Arena.get_of_elements? hitems]
        exact ⟨nofun, nofun⟩
      · have hpart := ((hforest.isTree List.mem_cons_self).grounded.part hx).lt_size [] x .here
        rw [hsame x hpart hx']
    rw [textArgument?_congr hslot hnames, Program.textArgument?_of_holdsList hholds] at htext
    cases htext
  · obtain ⟨hmarked, hwithin⟩ := hcalls.of_directs hdirects
    obtain ⟨htree, hchildren⟩ := Program.setChildren_follows hforest hlist hitems hholds hruns
      hmarked hwithin hsize hfollows
    obtain ⟨views, halways, hserves, hprints⟩ := hamount.become _ (hsettled.names .markup rfl)
      id (hkeeps.1.trans hsize) hsmall hchildren fun x hx call hcall path hpath => by
        have hx' := List.mem_append_left (callee :: (before ++ back)) (hruns.subset hx)
        have hbelow := (hbeside.isTree hx').grounded.below hpath
        exact (hdirects call hcall).earlier hbelow hkeeps.1 fun way y hway =>
          hsame y (hbelow.lt_size way y hway) (hbeside.path_mem hx' (hpath.append hway))
    obtain ⟨serial, stop, heval⟩ := hremakes (Nat.le_add_right depth 2) halways
    obtain ⟨hcloses', hopening, hinner⟩ :=
      hcloses.withChildren (views.map (Datum.asChild node.holdsRaw))
    rw [htree, ← hopening]
    refine .of_enclosing hcloses' (.of_view hsettled.older (Nat.le_refl _) heval)
      (hinner.symm ▸ hserves) (.ofCall _ fun t ht => ?_)
    rcases List.mem_append.mp ht with ht | ht
    · obtain ⟨x, hx, rfl⟩ := List.mem_map.mp ht
      exact hprintable x (List.mem_append_left _ hx)
    · rcases List.mem_cons.mp ht with rfl | ht
      · exact .array hprints
      · obtain ⟨x, hx, rfl⟩ := List.mem_map.mp ht
        exact hprintable x (List.mem_append_right _ hx)

/-- No such call is rewritten. -/
theorem Program.Within.ne (h : Program.Within arena slot elements calls)
    (happart : Forest {x | x ≠ slot} arena elements) : ∀ call ∈ calls, call.1 ≠ slot := by
  rintro call hcall rfl
  obtain ⟨element, helement, path, hpath⟩ := (h call hcall).2 [] .here
  exact happart.path_mem helement hpath rfl

/-- Markup that takes the place of a node, around its children. -/
theorem Keeps.becomeFragment (hsettled : scene.Settled) (hlt : slot < arena.size)
    (happart : Forest {x | x ≠ slot} arena elements)
    (hcalls : Program.Within arena slot elements calls)
    (hruns : (Program.runSlots runs).Sublist elements)
    (hamount : Run.Amount (Keeps engine functions owner (.within owner) scene depth raw'
      arena calls) runs content)
    (hgrounded : ((Program.pushRuns arena runs).2.becomeFragment slot opening closing
      (Program.pushRuns arena runs).1).Grounded slot) :
    Keeps engine functions owner context scene (depth + 2) raw
      ((Program.pushRuns arena runs).2.becomeFragment slot opening closing
        (Program.pushRuns arena runs).1) calls slot (opening ++ content ++ closing) := by
  have hkept := happart.subperm hruns.subperm
  obtain ⟨hext, hpushed, -⟩ := Program.pushRuns_apart hlt hkept
  have hlt' := hlt.trans_le hext.1
  obtain ⟨hle, ⟨callee, first, second, third, hget⟩, hsame⟩ :=
    Program.becomeFragment_get hlt' opening closing (Program.pushRuns arena runs).1
  refine ⟨hgrounded, fun argument htext => ?_,
    fun last marked entry hsize hfollows hsmall hdirects => ?_⟩
  · obtain ⟨-, harguments⟩ := Script.Arena.textArgument?_eq_some htext
    rw [Script.Arena.arguments, hget] at harguments
    cases harguments
  · obtain ⟨hmarked, -⟩ := hcalls.of_directs hdirects
    have hslot : slot ∉ marked := fun hmem => by
      obtain ⟨child, i, hcall, -⟩ := hdirects slot hmem
      exact hcalls.ne happart _ hcall rfl
    obtain ⟨htree, hchildren⟩ := Program.becomeFragment_follows hlt' hpushed
      (fun x hx => ⟨(hmarked x hx).1.trans_le hext.1, (hmarked x hx).2⟩) hslot hsize hfollows
    obtain ⟨htrees, hchildren⟩ := Program.pushRuns_follows (hkept.mono fun _ _ => trivial)
      (fun x hx => (hmarked x hx).1) (hle.trans hsize) hchildren
    obtain ⟨views, halways, hserves, hprints⟩ := hamount.become false
      (hsettled.names .markup rfl) (absurd · Bool.false_ne_true) (hext.1.trans (hle.trans hsize))
      hsmall hchildren
      fun x hx call hcall path hpath => by
        have hbelow := (hkept.isTree hx).grounded.below hpath
        refine (hdirects call hcall).earlier hbelow (hext.1.trans hle) fun way y hway => ?_
        have hy := hbelow.lt_size way y hway
        exact (hsame y (hy.trans_le hext.1) (hkept.path_mem hx (hpath.append hway))).trans
          (hext.2 y hy)
    have hcloses : (View.fragment opening closing (views.map (Datum.asChild false))).ClosesWith
      closing := rfl
    rw [htree, htrees]
    refine .of_enclosing hcloses
      (Evaluator.always_fragment (hsettled.names .markup rfl) halways opening closing) hserves
      (.ofCall _ ?_)
    simp only [List.forall_mem_cons]
    exact ⟨.str _, .str _, .array hprints, fun _ ht => absurd ht List.not_mem_nil⟩

/-- Every child among runs is worth some markup. -/
theorem Run.Amount.piece_of_mem {piece : Id → String → Prop} (h : Run.Amount piece runs content) :
    ∀ x ∈ Program.runSlots runs, ∃ html, piece x html := by
  induction h with
  | nil => exact fun _ hx => absurd hx List.not_mem_nil
  | literal _ _ ih => exact ih
  | child hfirst _ ih => exact List.forall_mem_cons.mpr ⟨⟨_, hfirst⟩, ih⟩

/-- None of the calls that are numbered later stands below a text that is taken out
    of the call around it. -/
theorem Run.Amount.calls_apart
    (hamount : Run.Amount (Keeps engine functions owner (.within owner) scene depth raw'
      arena calls) runs content) (hlt : slot < arena.size)
    (happart : Forest {x | x ≠ slot} arena elements)
    (hcalls : Program.Within arena slot elements calls)
    (hruns : (Program.runSlots runs).Sublist elements) {only argument : Id}
    (honly : (Program.pushRuns arena runs).1 = [only])
    (htext : (Program.pushRuns arena runs).2.textArgument? only = some argument)
    (opening closing : String) :
    ∀ call ∈ calls, ∀ path, ¬ (Program.enclose (Program.pushRuns arena runs).2 slot opening
      closing [only]).Path slot path call.1 := by
  have hkept := happart.subperm hruns.subperm
  obtain ⟨hext, hpushed, -⟩ := Program.pushRuns_apart hlt hkept
  rw [honly] at hpushed
  have hpart : argument ∈ ((Program.pushRuns arena runs).2.get only).children :=
    Script.Arena.arguments_subset _ only
      ((Script.Arena.textArgument?_eq_some htext).2 ▸ List.mem_singleton_self argument)
  obtain ⟨place, hplace⟩ := List.getElem?_of_mem hpart
  have hargument : (Program.pushRuns arena runs).2.Clear slot argument :=
    ⟨(hpushed.isTree (List.mem_singleton_self only)).grounded.part hpart, fun path hpath =>
      hpushed.path_mem (List.mem_singleton_self only) (.down hplace hpath) rfl⟩
  intro call hcall path hpath
  have hcalllt := (hcalls call hcall).1
  rcases Program.enclose_text_path (hlt.trans_le hext.1) htext hargument hpath
    (hcalllt.trans_le hext.1) with heq | ⟨way, hway⟩
  · exact hcalls.ne happart call hcall heq
  · have hbelow := Script.Arena.Path.down hplace hway
    rcases Program.pushRuns_new (hkept.mono fun _ _ => trivial) only
      (honly ▸ List.mem_singleton_self only) with honlymem | hnew
    · obtain ⟨html, hkeeps⟩ := hamount.piece_of_mem only honlymem
      have hsame (way : List Nat) (x : Id) (hx : arena.Path only way x) :
          (Program.pushRuns arena runs).2.get x = arena.get x :=
        hext.2 x (hkeeps.grounded.lt_size way x hx)
      refine hkeeps.text argument ?_ call hcall _ (hbelow.back fun way x hx =>
        congrArg Script.Node.children (hsame way x hx))
      rw [← textArgument?_same hsame, htext]
    · exact absurd hcalllt (Nat.not_lt_of_le (hnew _ _ hbelow))

/-- A text that takes the place of a node, taken out of the call around it. -/
theorem Keeps.becomeText {memory : Engine.State} (hmemory : engine.function? memory = functions)
    (hsettled : scene.Settled) (hlt : slot < arena.size)
    (happart : Forest {x | x ≠ slot} arena elements)
    (hcalls : Program.Within arena slot elements calls)
    (hruns : (Program.runSlots runs).Sublist elements)
    (hamount : Run.Amount (Keeps engine functions owner (.within owner) scene depth raw'
      arena calls) runs content) {only argument : Id}
    (honly : (Program.pushRuns arena runs).1 = [only])
    (htext : (Program.pushRuns arena runs).2.textArgument? only = some argument)
    (hgrounded : (Program.enclose (Program.pushRuns arena runs).2 slot opening closing
      [only]).Grounded slot) :
    Keeps engine functions owner context scene (depth + 2) raw
      (Program.enclose (Program.pushRuns arena runs).2 slot opening closing [only]) calls slot
      (opening ++ content ++ closing) := by
  have hkept := happart.subperm hruns.subperm
  obtain ⟨hext, hpushed, -⟩ := Program.pushRuns_apart hlt hkept
  rw [honly] at hpushed
  have hlt' := hlt.trans_le hext.1
  obtain ⟨hhelper, harguments⟩ := Script.Arena.textArgument?_eq_some htext
  have hpart : argument ∈ ((Program.pushRuns arena runs).2.get only).children :=
    Script.Arena.arguments_subset _ only (harguments ▸ List.mem_singleton_self argument)
  have honlygrounded := (hpushed.isTree (List.mem_singleton_self only)).grounded
  have hnone := hamount.calls_apart hlt happart hcalls hruns honly htext opening closing
  refine ⟨hgrounded, fun _ _ => hnone, fun last marked entry hsize hfollows hsmall hdirects => ?_⟩
  have htree := (hfollows.unmarked hgrounded hsize fun path x hpath hx => by
    obtain ⟨child, i, hcall, -⟩ := hdirects x hx
    exact hnone _ hcall path hpath).2
  obtain ⟨whole, hwrapped, hwhole⟩ := Script.Arena.tree_becomeText_wrapped hlt'
    ((Program.forest_children hpushed (List.mem_singleton_self only)).subperm
      (List.singleton_sublist.mpr hpart).subperm) opening closing
  have hafter : (Program.enclose (Program.pushRuns arena runs).2 slot opening closing [only]).tree
      slot = .ofCall .markup [whole] := by
    rw [← hwhole]
    simp only [Program.enclose, htext]
  -- The text is evaluated as it was when it stood in its own call.
  have hrefl : ∀ id ∈ (Program.pushRuns arena runs).1, Follows (Program.pushRuns arena runs).2
      (Program.pushRuns arena runs).2 ∅ id := by
    rw [honly]
    exact List.forall_mem_singleton.mpr (.refl honlygrounded)
  obtain ⟨htrees, hchildren⟩ := Program.pushRuns_follows (hkept.mono fun _ _ => trivial)
    (fun _ hx => hx.elim) (Nat.le_refl _) hrefl
  obtain ⟨views, halways, hserves, hprints⟩ := hamount.become false
    (hsettled.names .markup rfl) (absurd · Bool.false_ne_true) hext.1 hsmall hchildren
    fun _ _ _ hcall => hcall.elim
  rw [← htrees, honly, List.map_singleton, tree_of_helper? honlygrounded hhelper, harguments,
    List.map_singleton] at halways hprints
  cases halways with
  | cons hview hnil =>
      cases hnil
      obtain ⟨text, rfl, hargumenttext⟩ := hview.markup_text (hsettled.names .markup rfl)
        hsettled.older
      obtain rfl := Serves.eq_of_literal hmemory hserves
      rw [htree, hafter]
      have hprint := (hprints _ (List.mem_singleton_self _)).of_ofCall _ (List.mem_singleton_self _)
      have hmarkup (raw : String) :
          View.fragment (opening ++ content ++ closing) "" [] ≠ .text raw true := by
        rintro ⟨⟩
      exact ⟨_, Evaluator.always_wrapped (hsettled.names .markup rfl) hargumenttext hwrapped,
        hmarkup, fun _ _ => .literal _,
        .ofCall _ (List.forall_mem_singleton.mpr (.wrapped hwrapped hprint))⟩

end Call

section Program

variable {program : Program} {list : Id} {elements before back : List Id} {helper : Helper}
  {cached : FactoryId → Option Resolution}

/-- A node that is not static and whose children are known becomes a literal, gets
    other children, or gives way to markup around them. -/
theorem Program.foldLevel_matched (hstatic : program.findings.isStatic slot = false)
    (hmatched : program.findings.isUnmatched slot = false) (closing : String) (slots : List Id) :
    (∃ text, (program.foldLevel slot closing slots).findings.literal? slot = some text) ∨
    (∃ runs, (runs = program.findings.runs slots ∨ ∃ text,
        Run.literal? (program.findings.runs slots) = some text ∧ runs = [.literal text]) ∧
      (program.foldLevel slot closing slots).arena = setChildren program.arena slot runs) ∨
    ∃ opening, program.findings.text? slot = some opening ∧
      (program.foldLevel slot closing slots).arena =
        enclose (pushRuns program.arena (program.findings.runs slots)).2 slot opening closing
          (pushRuns program.arena (program.findings.runs slots)).1 := by
  cases hopening : program.findings.text? slot <;>
    cases hcontent : Run.literal? (program.findings.runs slots) <;>
    simp only [foldLevel, hstatic, hmatched, hopening, hcontent, Bool.false_eq_true, if_false]
  · exact Or.inr (Or.inl ⟨_, Or.inl rfl, rfl⟩)
  · exact Or.inr (Or.inl ⟨_, Or.inr ⟨_, rfl, rfl⟩, rfl⟩)
  · exact Or.inr (Or.inr ⟨_, rfl, rfl⟩)
  · exact Or.inl ⟨_, Findings.literal?_markStatic_self⟩

/-- Markup is put around children, unless there is only one and that is a text. -/
theorem Program.enclose_cases (arena : Arena) (slot : Id) (opening closing : String)
    (children : List Id) :
    enclose arena slot opening closing children =
        arena.becomeFragment slot opening closing children ∨
      ∃ only argument, children = [only] ∧ arena.textArgument? only = some argument := by
  unfold enclose
  rcases children with _ | ⟨only, _ | _⟩
  · exact Or.inl rfl
  · cases htext : arena.textArgument? only with
    | none => exact Or.inl (by simp only [htext])
    | some argument => exact Or.inr ⟨only, argument, rfl, htext⟩
  · exact Or.inl rfl

/-- A node that becomes static has the markup it is given. -/
theorem Program.foldLevel_text {pass : Pass} (piece : Id → String → Prop) {text : String}
    (hcloses : node.ClosesWith closing)
    (hopening : ∀ text, program.findings.text? slot = some text →
      text = node.opening engine context)
    (hstatic : program.findings.isStatic slot = false)
    (hchildren : List.Forall₂ (program.findings.Knows engine functions cached pass owner
      (.within owner) piece) elements node.children)
    (hhtml : Amounts engine functions cached pass owner context [node] html)
    (htext : (program.foldLevel slot closing elements).findings.literal? slot = some text) :
    html = text := by
  obtain ⟨content, rfl, hcontent⟩ := (Amounts.enclosing_iff hcloses).mp hhtml
  have hamount := Findings.runs_pieces hchildren hcontent
  rcases foldLevel_cases hstatic closing elements with
    ⟨opening, inner, hfound, hliteral, hfold⟩ | hsame
  · have hmarked : (program.foldLevel slot closing elements).findings.text? slot =
        some (opening ++ inner ++ closing) := by
      rw [hfold]
      exact Findings.text?_markStatic_self
    obtain rfl := Option.some.inj
      ((Findings.literal?_eq_some_iff.mp htext).2.symm.trans hmarked)
    rw [hopening opening hfound, hamount.eq_of_literal? hliteral]
  · rw [hsame, Findings.literal?_eq_none hstatic] at htext
    cases htext

/-- A node whose level is folded keeps its markup, if its children do and what
    opens it is known or stays. -/
theorem Keeps.foldLevel {memory : Engine.State} (hmemory : engine.function? memory = functions)
    (hsettled : scene.Settled) (hforest : Forest Set.univ program.arena [slot])
    (hlist : program.arena.childArray? slot = some list)
    (hitems : program.arena.elements? list = some elements)
    (hholds : program.arena.HoldsList slot list helper before back)
    (hremakes : Remakes scene.setting scene.env scene.start depth
      (program.arena.callAround helper before back) node)
    (hprintable : ∀ x ∈ before ++ back, (program.arena.tree x).Printable)
    (hcloses : node.ClosesWith closing)
    (hcalls : Program.Within program.arena slot elements calls)
    (hopening : ∀ text, program.findings.text? slot = some text →
      text = node.opening engine context)
    (hstatic : program.findings.isStatic slot = false)
    (hmatched : program.findings.isUnmatched slot = false)
    (hchildren : List.Forall₂ (program.findings.Knows engine functions cached .dynamic owner
      (.within owner) (Keeps engine functions owner (.within owner) scene depth node.holdsRaw
        program.arena calls)) elements node.children)
    (hhtml : Amounts engine functions cached .dynamic owner context [node] html)
    (hnone : (program.foldLevel slot closing elements).findings.literal? slot = none) :
    Keeps engine functions owner context scene (depth + 2) raw
      (program.foldLevel slot closing elements).arena calls slot html := by
  obtain ⟨content, rfl, hcontent⟩ := (Amounts.enclosing_iff hcloses).mp hhtml
  have hamount := Findings.runs_pieces hchildren hcontent
  have hruns := Program.runSlots_runs_sublist program.findings elements
  have hafter := (Program.foldLevel_keepsForests (Or.inr ⟨list, hlist, hitems⟩) closing).forest
    hforest
  have hgrounded := (hafter.isTree List.mem_cons_self).grounded
  have hlt := (hforest.mem List.mem_cons_self).2
  have happart := Program.elements_apart hforest hlist hitems
  rcases Program.foldLevel_matched hstatic hmatched closing elements with
    ⟨text, hliteral⟩ | ⟨runs, hcases, hfold⟩ | ⟨opening, hfound, hfold⟩
  · cases hnone.symm.trans hliteral
  · -- The node keeps its call.
    rw [hfold]
    rcases hcases with rfl | ⟨text, hliteral, rfl⟩
    · exact .setChildren hsettled hforest hlist hitems hholds hremakes hprintable hcloses hcalls
        hruns hamount
    · obtain rfl := hamount.eq_of_literal? hliteral
      exact .setChildren hsettled hforest hlist hitems hholds hremakes hprintable hcloses hcalls
        (List.nil_sublist _) (.single _)
  · -- Markup takes the place of the node.
    obtain rfl := hopening opening hfound
    rw [hfold] at hgrounded ⊢
    rcases Program.enclose_cases (Program.pushRuns program.arena
        (program.findings.runs elements)).2 slot (node.opening engine context) closing
        (Program.pushRuns program.arena (program.findings.runs elements)).1 with
      hfragment | ⟨only, argument, honly, htext⟩
    · rw [hfragment] at hgrounded ⊢
      exact .becomeFragment hsettled hlt happart hcalls hruns hamount hgrounded
    · rw [honly] at hgrounded ⊢
      exact .becomeText hmemory hsettled hlt happart hcalls hruns hamount honly htext hgrounded

end Program

end Levels

end RenderFold
