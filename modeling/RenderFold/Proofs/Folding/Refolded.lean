import RenderFold.Proofs.Folding.LevelMarkup
import RenderFold.Proofs.Folding.Records
import RenderFold.Proofs.Script.Wrapping

/-!
# Folding a Level Again

The second time a level is folded, the findings are what they were, so the same
is done again: to a node that is now markup, or has its new children. A node that
has become a literal is static, and is left alone. Children are put where they
are, and new literals take the place of those that were new the first time. They
are read off as before, as long as no child leads back to the node or to the list
that holds its children.

There is one exception. A single child that is a text is taken into the markup,
and if it is a chain of sums that ends in a literal, markup is taken into that
literal. The child itself is changed by this, and so it takes in more the next
time.

## Main definitions

* `Run.sole?`: The only child, and nothing beside it.
* `Program.reframe`: Putting markup around children.
* `Arena.Untangled`: No child leads back.
* `Program.Absorbs`: Folding a level makes a text take in markup.

## Theorems

* `Program.setChildren_again`: Putting in the same children twice.
* `Program.reframe_again_iff`: Putting the same markup around them twice.
* `Program.foldLevel_again`: Folding a level twice.
-/

namespace RenderFold

open Script (Arena Id Node Tree)
open Script.Arena (Clear Extends Grounded Lengthens)

/-- The only child among runs, if every literal beside it is empty. -/
def Run.sole? (runs : List Run) : Option Id :=
  match runs.filter (· ≠ .literal "") with
  | [.child only] => some only
  | _ => none

/-- Unless all children are static, one of them is left. -/
theorem Findings.exists_child {findings : Findings} {slots : List Id}
    (h : Run.literal? (findings.runs slots) = none) :
    ∃ child, .child child ∈ findings.runs slots := by
  obtain ⟨slot, hslot, hnone⟩ : ∃ slot ∈ slots, findings.literal? slot = none := by
    by_contra! hall
    have hstatic : ∀ slot ∈ slots, (findings.literal? slot).isSome = true :=
      fun slot hslot => Option.isSome_iff_ne_none.mpr (hall slot hslot)
    cases h.symm.trans (Findings.literal?_runs_iff.mpr ⟨hstatic, rfl⟩)
  have hmem : slot ∈ Program.runSlots (findings.runs slots) := by
    rw [Program.runSlots_runs_eq]
    exact List.mem_filter.mpr ⟨hslot, Option.isNone_iff_eq_none.mpr hnone⟩
  obtain ⟨run, hrun, hchild⟩ := List.mem_filterMap.mp hmem
  cases run with
  | literal text => cases hchild
  | child slot => exact ⟨slot, hrun⟩

namespace Program

variable {arena : Arena} {slot only : Id} {runs : List Run} {opening closing : String}

/-- Empty literals are left out. -/
theorem pushRuns_filter (arena : Arena) (runs : List Run) :
    pushRuns arena (runs.filter (· ≠ .literal "")) = pushRuns arena runs := by
  induction runs generalizing arena with
  | nil => rfl
  | cons run rest ih =>
      cases run with
      | child slot =>
          rw [List.filter_cons_of_pos (by simp), pushRuns, pushRuns, ih]
      | literal text =>
          by_cases hempty : text = ""
          · subst hempty
            rw [List.filter_cons_of_neg (by simp), pushRuns, if_pos rfl, ih]
          · rw [List.filter_cons_of_pos (by simpa using hempty), pushRuns, pushRuns,
              if_neg hempty, if_neg hempty]
            simp only [ih]

theorem length_pushRuns (h : ∀ run ∈ runs, run ≠ .literal "") (arena : Arena) :
    (pushRuns arena runs).1.length = runs.length := by
  induction runs generalizing arena with
  | nil => rfl
  | cons run rest ih =>
      obtain ⟨hrun, hrest⟩ := List.forall_mem_cons.mp h
      cases run with
      | child slot => exact congrArg Nat.succ (ih hrest arena)
      | literal text =>
          rw [pushRuns, if_neg fun hempty => hrun (congrArg Run.literal hempty)]
          exact congrArg Nat.succ (ih hrest _)

theorem pushRuns_sole (h : Run.sole? runs = some only) (arena : Arena) :
    pushRuns arena runs = ([only], arena) := by
  rw [← pushRuns_filter]
  unfold Run.sole? at h
  split at h
  · next heq =>
      cases h
      rw [heq]
      rfl
  · cases h

/-- Where there is a child that is not the only one, more than one is put in. -/
theorem length_pushRuns_ne_one (hchild : ∃ child, .child child ∈ runs) (h : Run.sole? runs = none)
    (arena : Arena) : (pushRuns arena runs).1.length ≠ 1 := by
  obtain ⟨child, hchild⟩ := hchild
  have hmem : .child child ∈ runs.filter (· ≠ .literal "") :=
    List.mem_filter.mpr ⟨hchild, by simp⟩
  rw [← pushRuns_filter, length_pushRuns fun run hrun => by simpa using (List.mem_filter.mp hrun).2]
  intro hlength
  obtain ⟨run, hsingle⟩ := List.length_eq_one_iff.mp hlength
  rw [hsingle, List.mem_singleton] at hmem
  rw [Run.sole?, hsingle, ← hmem] at h
  cases h

/-- The children that are put in have the trees of their runs, and are clear of
    what the children among the runs are clear of. -/
theorem pushRuns_clear {root : Id} : ∀ {arena : Arena}, root < arena.size →
    (∀ x ∈ runSlots runs, arena.Clear root x) →
      Extends arena (pushRuns arena runs).2 ∧
        (∀ x ∈ (pushRuns arena runs).1, (pushRuns arena runs).2.Clear root x) ∧
        (pushRuns arena runs).1.map (pushRuns arena runs).2.tree = Run.trees arena.tree runs := by
  induction runs with
  | nil => exact fun _ _ => ⟨.refl _, fun _ hx => absurd hx List.not_mem_nil, rfl⟩
  | cons run rest ih =>
      intro arena hroot h
      cases run with
      | child slot =>
          obtain ⟨hslot, hrest⟩ := List.forall_mem_cons.mp h
          obtain ⟨hext, hclear, htrees⟩ := ih hroot hrest
          obtain ⟨hslot', htree⟩ := hslot.extend hext
          refine ⟨hext, List.forall_mem_cons.mpr ⟨hslot', hclear⟩, ?_⟩
          rw [Run.trees, ← htrees, ← htree]
          rfl
      | literal text =>
          simp only [pushRuns, Run.trees]
          split
          · exact ih hroot h
          · have hliteral := pushLiteral_extends arena text
            have hnew := Clear.pushLiteral hroot text
            have hsame : Run.trees (arena.pushLiteral text).2.tree rest =
                Run.trees arena.tree rest :=
              Run.trees_congr fun x hx => ((h x hx).extend hliteral).2
            obtain ⟨hext, hclear, htrees⟩ := ih (hroot.trans_le hliteral.1) fun x hx =>
              ((h x hx).extend hliteral).1
            obtain ⟨hnew', htree⟩ := hnew.extend hext
            refine ⟨hliteral.trans hext, List.forall_mem_cons.mpr ⟨hnew', hclear⟩, ?_⟩
            rw [List.map_cons, htrees, htree, Script.Arena.tree_pushLiteral, hsame]

theorem sole_mem_runSlots (h : Run.sole? runs = some only) : only ∈ runSlots runs := by
  unfold Run.sole? at h
  split at h
  · next sole heq =>
      cases h
      have hmem : .child only ∈ runs.filter (· ≠ .literal "") := by
        rw [heq]
        exact List.mem_cons_self
      exact List.mem_filterMap.mpr ⟨_, (List.mem_filter.mp hmem).1, rfl⟩
  · cases h

theorem sole?_of_literal? {text : String} (h : Run.literal? runs = some text) :
    Run.sole? runs = none := by
  cases hsole : Run.sole? runs with
  | none => rfl
  | some only =>
      have hmem := sole_mem_runSlots hsole
      unfold Run.literal? at h
      split at h
      · exact absurd hmem List.not_mem_nil
      · exact absurd hmem List.not_mem_nil
      · cases h

/-- Rewrite an expression into markup around runs of children. -/
def reframe (arena : Arena) (slot : Id) (opening closing : String) (runs : List Run) : Arena :=
  enclose (pushRuns arena runs).2 slot opening closing (pushRuns arena runs).1

/-- A single text is taken into the markup. -/
theorem reframe_wrapped {argument : Id}
    (h : (Run.sole? runs).bind arena.textArgument? = some argument) (slot : Id)
    (opening closing : String) :
    reframe arena slot opening closing runs =
      arena.becomeWrapped slot opening argument closing := by
  obtain ⟨only, hsole, htext⟩ := Option.bind_eq_some_iff.mp h
  unfold reframe
  rw [pushRuns_sole hsole, enclose]
  dsimp only
  rw [htext]
  rfl

/-- Otherwise there is markup around all that is put in. -/
theorem reframe_fragment (hchild : ∃ child, .child child ∈ runs)
    (h : (Run.sole? runs).bind arena.textArgument? = none) (slot : Id) (opening closing : String) :
    reframe arena slot opening closing runs =
      (pushRuns arena runs).2.becomeFragment slot opening closing (pushRuns arena runs).1 := by
  unfold reframe
  cases hsole : Run.sole? runs with
  | some only =>
      rw [hsole, Option.bind_some] at h
      rw [pushRuns_sole hsole, enclose]
      dsimp only
      rw [h]
  | none =>
      have hlength := length_pushRuns_ne_one hchild hsole arena
      generalize (pushRuns arena runs).1 = children at hlength
      unfold enclose
      rcases children with _ | ⟨only, _ | _⟩
      · rfl
      · exact absurd rfl hlength
      · rfl

/-- The tree of markup around children, and the children themselves. -/
theorem tree_reframe (hroot : slot < arena.size) (hclear : ∀ x ∈ runSlots runs, arena.Clear slot x)
    (hchild : ∃ child, .child child ∈ runs)
    (h : (Run.sole? runs).bind arena.textArgument? = none) (opening closing : String) :
    (reframe arena slot opening closing runs).tree slot =
        .ofCall .markup [.mk (.str opening), .mk (.str closing),
          .mk (.array (Run.trees arena.tree runs))] ∧
      Lengthens slot arena (reframe arena slot opening closing runs) ∧
      ∀ x ∈ runSlots runs, (reframe arena slot opening closing runs).Clear slot x ∧
        (reframe arena slot opening closing runs).tree x = arena.tree x := by
  obtain ⟨hext, hpushed, htrees⟩ := pushRuns_clear hroot hclear
  rw [reframe_fragment hchild h, Clear.tree_becomeFragment (hroot.trans_le hext.1) hpushed, htrees]
  have hpushes := ((Extends.push (pushRuns arena runs).2 (.str opening)).trans
    (.push _ (.str closing))).trans ((Extends.push _ (.array (pushRuns arena runs).1)).trans
      (.push _ (.ident Helper.markup.name)))
  refine ⟨rfl, (Lengthens.of_extends (hext.trans hpushes)).trans (.replace _ slot _),
    fun x hx => ?_⟩
  exact (hclear x hx).replace (hext.trans hpushes) _

/-- Putting the same markup around the same children a second time changes
    nothing, unless a single text takes some of it in. -/
theorem reframe_again_iff (hroot : slot < arena.size)
    (hclear : ∀ x ∈ runSlots runs, arena.Clear slot x) (hchild : ∃ child, .child child ∈ runs)
    (opening closing : String) :
    (reframe (reframe arena slot opening closing runs) slot opening closing runs).tree slot =
        (reframe arena slot opening closing runs).tree slot ↔
      ¬ ∃ argument, (Run.sole? runs).bind arena.textArgument? = some argument ∧
        (arena.tree argument).Absorbs opening closing := by
  -- The first time leaves the single text what it is, so the second takes the same way.
  have hagain {after : Arena} (hkeep : Lengthens slot arena after) :
      (Run.sole? runs).bind after.textArgument? = (Run.sole? runs).bind arena.textArgument? := by
    cases hsole : Run.sole? runs with
    | none => rfl
    | some only => exact hkeep.textArgument?_eq (hclear only (sole_mem_runSlots hsole))
  cases htext : (Run.sole? runs).bind arena.textArgument? with
  | none =>
      obtain ⟨htree, hkeep, hkept⟩ := tree_reframe hroot hclear hchild htext opening closing
      obtain ⟨htree', -⟩ := tree_reframe (hroot.trans_le hkeep.size_le) (fun x hx => (hkept x hx).1)
        hchild ((hagain hkeep).trans htext) opening closing
      refine iff_of_true ?_ fun ⟨_, hnone, _⟩ => by cases hnone
      rw [htree', htree, Run.trees_congr fun x hx => (hkept x hx).2]
  | some argument =>
      obtain ⟨only, hsole, hargument⟩ := Option.bind_eq_some_iff.mp htext
      have hmem := Script.Arena.arguments_subset arena only
        (Script.Arena.textArgument?_mem_arguments hargument)
      have harg : arena.Clear slot argument := (hclear only (sole_mem_runSlots hsole)).part hmem
      have hkeep := Lengthens.becomeWrapped arena slot opening argument closing
      rw [reframe_wrapped htext, reframe_wrapped ((hagain hkeep).trans htext),
        harg.rewrap_iff hroot]
      refine not_congr ⟨fun h => ⟨argument, rfl, h⟩, ?_⟩
      rintro ⟨_, ⟨⟩, h⟩
      exact h

/-- The list of a call with other children in it. The call still holds that list,
    and the children are what they were. -/
theorem tree_setChildren {list : Id} (hslot : arena.Grounded slot)
    (hlist : arena.childArray? slot = some list)
    (hclear : ∀ x ∈ runSlots runs, arena.Clear list x) :
    (setChildren arena slot runs).tree list = .mk (.array (Run.trees arena.tree runs)) ∧
      (setChildren arena slot runs).childArray? slot = some list ∧
      (setChildren arena slot runs).Grounded slot ∧
      ((setChildren arena slot runs).tree list = arena.tree list →
        (setChildren arena slot runs).tree slot = arena.tree slot) ∧
      ∀ x ∈ runSlots runs, (setChildren arena slot runs).Clear list x ∧
        (setChildren arena slot runs).tree x = arena.tree x := by
  obtain ⟨elements, helements⟩ :=
    Option.isSome_iff_exists.mp (Script.Arena.place_of_childArray? hlist).1
  have hget : arena.get list = .array elements := Script.Arena.get_of_elements? helements
  have hpart : list ∈ (arena.get slot).children :=
    Script.Arena.arguments_subset arena slot (Script.Arena.childArray?_mem_arguments hlist)
  have hroot : list < arena.size := (hslot.part hpart).lt_size [] list .here
  have hne : slot ≠ list := by
    rintro rfl
    exact hslot.part_apart hpart [] .here
  obtain ⟨hext, hpushed, htrees⟩ := pushRuns_clear hroot hclear
  have hedit : setChildren arena slot runs =
      (pushRuns arena runs).2.replace list (.array (pushRuns arena runs).1) := by
    simp only [setChildren, hlist, Script.Arena.setElements, hext.2 list hroot, hget]
  rw [hedit]
  have hsize : arena.size ≤
      ((pushRuns arena runs).2.replace list (.array (pushRuns arena runs).1)).size := by
    rw [Script.Arena.size_replace]
    exact hext.1
  have hnode := Script.Arena.get_replace_self (hroot.trans_le hext.1)
    (.array (pushRuns arena runs).1)
  have hsame : ∀ x < arena.size, x ≠ list →
      ((pushRuns arena runs).2.replace list (.array (pushRuns arena runs).1)).get x =
        arena.get x := fun x hx hne =>
    (Script.Arena.get_replace_of_ne _ _ hne).trans (hext.2 x hx)
  obtain ⟨hgrounded, htree⟩ := Clear.tree_replace (.array (pushRuns arena runs).1)
    (hroot.trans_le hext.1) hpushed
  have hkept (x : Id) (hx : x ∈ runSlots runs) :=
    (hclear x hx).replace hext (.array (pushRuns arena runs).1)
  generalize (pushRuns arena runs).2.replace list (.array (pushRuns arena runs).1) = after at *
  rw [Node.map, htrees] at htree
  have hparts : ∀ x ∈ (arena.get slot).children, x ≠ list → after.get x = arena.get x :=
    fun x hx hne => hsame x ((hslot.part hx).lt_size [] x .here) hne
  refine ⟨htree, ?_, (hslot.patch hsize hsame hgrounded).1, (hslot.patch hsize hsame hgrounded).2,
    hkept⟩
  -- The call is what it was, and the list still is a list.
  rw [Script.Arena.childArray?_congr (hsame slot (hslot.lt_size [] slot .here) hne) ?_ ?_]
  · exact hlist
  · intro x hx name
    by_cases heq : x = list
    · rw [heq, hnode, hget]
      exact iff_of_false (fun h => by cases h) fun h => by cases h
    · rw [hparts x hx heq]
  · intro x hx
    by_cases heq : x = list
    · rw [heq, Arena.elements?, Arena.elements?, hnode, hget]
      rfl
    · rw [Arena.elements?, Arena.elements?, hparts x hx heq]

/-- Putting the same children into the same list a second time changes
    nothing. -/
theorem setChildren_again (hslot : arena.Grounded slot)
    (hclear : ∀ list, arena.childArray? slot = some list →
      ∀ x ∈ runSlots runs, arena.Clear list x) :
    (setChildren (setChildren arena slot runs) slot runs).tree slot =
      (setChildren arena slot runs).tree slot := by
  cases hlist : arena.childArray? slot with
  | none =>
      have hnothing : setChildren arena slot runs = arena := by rw [setChildren, hlist]
      rw [hnothing, hnothing]
  | some list =>
      obtain ⟨htree, hlist', hslot', -, hkept⟩ := tree_setChildren hslot hlist (hclear list hlist)
      obtain ⟨htree', -, -, hsame, -⟩ :=
        tree_setChildren hslot' hlist' fun x hx => (hkept x hx).1
      refine hsame ?_
      rw [htree', htree, Run.trees_congr fun x hx => (hkept x hx).2]

end Program

/-- An expression can be read off in full and so can its children, and no child
    leads back to the expression, or to the list of children in it. -/
structure Script.Arena.Untangled (arena : Arena) (slot : Id) (slots : List Id) : Prop where
  grounded : arena.Grounded slot
  clear : ∀ child ∈ slots, arena.Clear slot child
  list_clear : ∀ list, arena.childArray? slot = some list → ∀ child ∈ slots, arena.Clear list child

namespace Program

variable {program : Program} {slot : Id} {slots : List Id}

/-- Folding a level puts markup around its children, which amount to one text
    that takes some of the markup in. -/
def Absorbs (program : Program) (slot : Id) (closing : String) (slots : List Id) : Prop :=
  program.reframes slot = true ∧ ∃ opening argument, program.findings.text? slot = some opening ∧
    (Run.sole? (program.findings.runs slots)).bind program.arena.textArgument? = some argument ∧
    (program.arena.tree argument).Absorbs opening closing

/-- Folding a level a second time finds out nothing, and leaves the expression
    what it is, unless the first time made a text take in some markup. -/
theorem foldLevel_again (h : program.arena.Untangled slot slots) (closing : String) :
    ((program.foldLevel slot closing slots).foldLevel slot closing slots).findings =
        (program.foldLevel slot closing slots).findings ∧
      (((program.foldLevel slot closing slots).foldLevel slot closing slots).arena.tree slot =
          (program.foldLevel slot closing slots).arena.tree slot ↔
        ¬ program.Absorbs slot closing slots) := by
  have hroot : slot < program.arena.size := h.grounded.lt_size [] slot .here
  have hslots : ∀ x ∈ runSlots (program.findings.runs slots), x ∈ slots :=
    runSlots_runs program.findings slots
  rcases foldLevel_acts program slot closing slots with ⟨hact, hreframes⟩ |
    ⟨opening, text, -, -, hliteral, hact⟩ | ⟨runs, hruns, hact, hreframes⟩ |
    ⟨opening, -, htext, hliteral, hact, hreframes⟩
  · have honce : program.foldLevel slot closing slots = program := hact program.arena
    rw [honce, honce]
    refine ⟨rfl, iff_of_true rfl fun habsorbs => ?_⟩
    cases hreframes.symm.trans habsorbs.1
  · -- The node is static from the first time on.
    have honce := hact program.arena
    have htwice : (program.foldToLiteral slot (opening ++ text ++ closing)).foldLevel slot closing
        slots = program.foldToLiteral slot (opening ++ text ++ closing) := by
      unfold foldLevel
      exact if_pos Findings.isStatic_markStatic_self
    rw [honce, htwice]
    refine ⟨rfl, iff_of_true rfl ?_⟩
    rintro ⟨-, -, argument, -, hargument, -⟩
    rw [sole?_of_literal? hliteral] at hargument
    cases hargument
  · rw [hact program.arena, hact (setChildren program.arena slot runs)]
    refine ⟨rfl, iff_of_true (setChildren_again h.grounded fun list hlist x hx => ?_) ?_⟩
    · refine h.list_clear list hlist x ?_
      rcases hruns with rfl | ⟨text, -, rfl⟩
      · exact hslots x hx
      · exact absurd hx List.not_mem_nil
    · intro habsorbs
      cases hreframes.symm.trans habsorbs.1
  · have hagain := reframe_again_iff hroot (fun x hx => h.clear x (hslots x hx))
      (Findings.exists_child hliteral) opening closing
    rw [hact program.arena, hact]
    refine ⟨rfl, hagain.trans (not_congr ⟨?_, ?_⟩)⟩
    · rintro ⟨argument, hargument, habsorbs⟩
      exact ⟨hreframes, opening, argument, htext, hargument, habsorbs⟩
    · rintro ⟨-, opening', argument, htext', hargument, habsorbs⟩
      cases htext.symm.trans htext'
      exact ⟨argument, hargument, habsorbs⟩

/-- A paragraph around a text and an exclamation mark is printed the same after
    the second time. -/
theorem foldLevel_again_paragraph :
    (exclaimed "p").arena.Untangled 9 [4, 7] ∧
      (((exclaimed "p").foldLevel 9 "</p>" [4, 7]).foldLevel 9 "</p>" [4, 7]).arena.printExpression
          9 0 = ((exclaimed "p").foldLevel 9 "</p>" [4, 7]).arena.printExpression 9 0 ∧
      ((exclaimed "p").foldLevel 9 "</p>" [4, 7]).arena.tree 9 =
        .ofCall .markup [.mk (.str "<p>"), .mk (.str "</p>"), .mk (.array
          [.ofCall .text [.mk (.ident "name")], .ofCall .markup [.mk (.str "!")]])] := by
  have huntangled : (exclaimed "p").arena.Untangled 9 [4, 7] := by
    refine ⟨by decide, by decide, fun list hlist => ?_⟩
    cases hlist
    decide
  obtain ⟨-, hsame⟩ := foldLevel_again huntangled "</p>"
  refine ⟨huntangled, congrArg (Script.Printer.expression 0 0) (hsame.mpr ?_), rfl⟩
  rintro ⟨-, opening, argument, -, hargument, -⟩
  cases hargument

/-- A paragraph around one text, which begins with a literal. -/
def greeting : Program where
  arena := ⟨#[.ident "_ssrNode", .str "a", .ident "name", .binary .add 1 2, .call 0 [3],
    .ident "_c", .str "p", .array [4], .call 5 [6, 7]]⟩
  findings := Findings.setText [] 8 "<p>"

/-- A text that is given to itself as a child. -/
def selfHeld : Program where
  arena := ⟨#[.ident "_ssrNode", .ident "name", .call 0 [1]]⟩
  findings := Findings.setText [] 2 "<p>"

/-- The text takes in the start tag, and takes it in again the second time. What
    is its own child takes the markup in with itself. -/
theorem foldLevel_absorbed :
    (greeting.arena.Untangled 8 [4] ∧
      greeting.arena.printExpression 8 0 = "_c(\"p\", [_ssrNode(\"a\" + name)])" ∧
      (greeting.foldLevel 8 "</p>" [4]).arena.printExpression 8 0 =
        "_ssrNode(\"<p>a\" + name + \"</p>\")" ∧
      ((greeting.foldLevel 8 "</p>" [4]).foldLevel 8 "</p>" [4]).arena.printExpression 8 0 =
        "_ssrNode(\"<p><p>a\" + name + \"</p>\")") ∧
    (selfHeld.foldLevel 2 "</p>" [2]).arena.printExpression 2 0 =
        "_ssrNode(\"<p>\" + name + \"</p>\")" ∧
      ((selfHeld.foldLevel 2 "</p>" [2]).foldLevel 2 "</p>" [2]).arena.printExpression 2 0 =
        "_ssrNode(\"<p><p>\" + name + \"</p></p>\")" := by
  have huntangled : greeting.arena.Untangled 8 [4] := by
    refine ⟨by decide, by decide, fun list hlist => ?_⟩
    cases hlist
    decide
  exact ⟨⟨huntangled, by decide, by decide, by decide⟩, by decide, by decide⟩

end Program

end RenderFold
