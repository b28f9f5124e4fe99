import RenderFold.Proofs.Component.Evaluated
import RenderFold.Proofs.Script.Edited

/-!
# Sums of Texts

A sum of numbers is a number, so sums cannot be regrouped: `1 + 2 + "a"` is
`3a` and `1 + (2 + "a")` is `12a`. But once one side is a text, so is the sum.
A chain that ends in a literal is a text at every operator from the literal up
to its top, and there a text beside the chain can be moved along it to the
literal, past operands that may be anything, or may fail.

## Main definitions

* `Evaluator.Textual`: Two expressions that give texts side by side.

## Theorems

* `Tree.EndChanged.textual`: Chains that differ in the text at one end.
* `Evaluator.eval_join`: A concatenation is the sum of its sides.
-/

namespace RenderFold

open Script (Tree Id Arena)

namespace Evaluator

variable {setting : Setting} {env : Env} {depth : Nat}

/-- A text on the left makes a text of any sum. -/
theorem add_str_left (text : String) (datum : Datum) :
    add (.str text) datum = .str (text ++ datum.text) := by
  cases datum <;> rfl

/-- So does a text on the right. -/
theorem add_str_right (datum : Datum) (text : String) :
    add datum (.str text) = .str (datum.text ++ text) := by
  cases datum with
  | value plain => cases plain <;> rfl
  | _ => rfl

/-- A sum evaluates its sides from left to right. -/
theorem eval_sum (left right : Tree) :
    eval setting (depth + 1) env (.mk (.binary .add left right)) =
      eval setting depth env left >>= fun first =>
        eval setting depth env right >>= fun second => pure (add first second) := rfl

theorem eval_str (text : String) :
    eval setting (depth + 1) env (.mk (.str text)) = pure (.str text) := rfl

/-- Two expressions that do the same and give texts, of which the second is
    made from the first. -/
def Textual (setting : Setting) (depth : Nat) (env : Env) (change : String → String)
    (t t' : Tree) : Prop :=
  ∃ texts : Eval String, eval setting depth env t = texts >>= (fun text => pure (.str text)) ∧
    eval setting depth env t' = texts >>= fun text => pure (.str (change text))

/-- At no depth at all, neither of them gives anything. -/
theorem Textual.zero (change : String → String) (t t' : Tree) :
    Textual setting 0 env change t t' :=
  ⟨throw .unfinished, rfl, rfl⟩

end Evaluator

open Evaluator

/-- Chains that differ in the text at one end give texts that differ in the
    same way, if the change is made at that end. -/
theorem Script.Tree.EndChanged.textual {change : String → String} {first : Bool} {t t' : Tree}
    (hchange : ∀ text rest, change (if first then text ++ rest else rest ++ text) =
      if first then change text ++ rest else rest ++ change text)
    (h : EndChanged change first t t') (setting : Setting) (env : Env) (depth : Nat) :
    Textual setting depth env change t t' := by
  induction h generalizing depth with
  | text first text =>
      cases depth with
      | zero => exact .zero ..
      | succ depth => exact ⟨pure text, by rw [eval_str, pure_bind], by rw [eval_str, pure_bind]⟩
  | left right _ ih =>
      cases depth with
      | zero => exact .zero ..
      | succ depth =>
          obtain ⟨texts, hbefore, hafter⟩ := ih hchange depth
          refine ⟨texts >>= fun text => eval setting depth env right >>= fun second =>
            pure (text ++ second.text), ?_, ?_⟩
          · simp only [eval_sum, hbefore, bind_assoc, pure_bind, add_str_left]
          · have hmove : ∀ text rest, change (text ++ rest) = change text ++ rest := hchange
            simp only [eval_sum, hafter, bind_assoc, pure_bind, add_str_left, hmove]
  | right left _ ih =>
      cases depth with
      | zero => exact .zero ..
      | succ depth =>
          obtain ⟨texts, hbefore, hafter⟩ := ih hchange depth
          refine ⟨eval setting depth env left >>= fun start => texts >>= fun text =>
            pure (start.text ++ text), ?_, ?_⟩
          · simp only [eval_sum, hbefore, bind_assoc, pure_bind, add_str_right]
          · have hmove : ∀ text rest, change (rest ++ text) = rest ++ change text := hchange
            simp only [eval_sum, hafter, bind_assoc, pure_bind, add_str_right, hmove]

namespace Evaluator

variable {setting : Setting} {env : Env}

/-- What is made of two expressions evaluates like their sum. The sum itself is
    one operator deeper than what is made without one. -/
theorem eval_joined {left right whole : Tree} (h : Arena.Joined left right whole) :
    ∃ operators ≤ 1, ∀ setting depth env,
      eval setting depth env whole =
        eval setting (depth + operators) env (.mk (.binary .add left right)) := by
  cases h with
  | sum => exact ⟨0, Nat.zero_le 1, fun _ _ _ => rfl⟩
  | literals hleft hright =>
      refine ⟨1, Nat.le_refl 1, fun setting depth env => ?_⟩
      subst hleft hright
      cases depth with
      | zero => rfl
      | succ depth =>
          simp only [eval_sum, eval_str, pure_bind, add_str_left]
          rfl
  | before hleft h =>
      refine ⟨1, Nat.le_refl 1, fun setting depth env => ?_⟩
      subst hleft
      cases depth with
      | zero => rfl
      | succ depth =>
          obtain ⟨texts, hright, hwhole⟩ :=
            h.textual (fun _ _ => String.append_assoc.symm) setting env (depth + 1)
          rw [eval_sum, hwhole, hright]
          simp only [eval_str, bind_assoc, pure_bind, add_str_left]
          rfl
  | after hright h =>
      refine ⟨1, Nat.le_refl 1, fun setting depth env => ?_⟩
      subst hright
      cases depth with
      | zero => rfl
      | succ depth =>
          obtain ⟨texts, hleft, hwhole⟩ :=
            h.textual (fun _ _ => String.append_assoc) setting env (depth + 1)
          rw [eval_sum, hwhole, hleft]
          simp only [eval_str, bind_assoc, pure_bind, add_str_right]
          rfl

/-- The concatenation of two expressions that have no part in common gives what
    their sum gave before, or fails as it did, whatever the operands are: in
    every setting, with any variables, and with the same serial numbers handed
    out. -/
theorem eval_join {arena : Arena} {left right : Id}
    (h : Arena.Forest Set.univ arena [left, right]) :
    ∃ operators ≤ 1, ∀ setting depth env,
      eval setting depth env ((arena.join left right).2.tree (arena.join left right).1) =
        eval setting (depth + operators) env
          (.mk (.binary .add (arena.tree left) (arena.tree right))) :=
  eval_joined h.tree_join

/-- A literal before a chain that begins with a literal, goes on with a number
    and ends with something that fails. -/
def failingChain : Arena :=
  ⟨#[.str "a", .str "b", .num 4607182418800017408, .binary .add 1 2, .ident "user",
    .member 4 "name", .binary .add 3 5]⟩

theorem eval_join_failingChain :
    Arena.Forest Set.univ failingChain [0, 6] ∧
      (failingChain.join 0 6).2.tree (failingChain.join 0 6).1 =
        .mk (.binary .add (.mk (.binary .add (.mk (.str "ab")) (.mk (.num 4607182418800017408))))
          (.mk (.member (.mk (.ident "user")) "name"))) ∧
      ∃ operators ≤ 1, ∀ setting depth env,
        eval setting depth env ((failingChain.join 0 6).2.tree (failingChain.join 0 6).1) =
          eval setting (depth + operators) env
            (.mk (.binary .add (failingChain.tree 0) (failingChain.tree 6))) := by
  have hlt : ∀ id < 7, id < failingChain.size := fun _ h => h
  -- From the operands up: the left side, the variable, and the chain over both.
  have hsum := Arena.Spans.cons (hlt 3 (by decide))
    (.cons (hlt 1 (by decide)) .nil (.cons (hlt 2 (by decide)) .nil .nil))
    (.cons (hlt 5 (by decide)) (.cons (hlt 4 (by decide)) .nil .nil) .nil)
  have hspans : Arena.Spans failingChain [0, 6] [0, 6, 3, 1, 2, 5, 4] :=
    .cons (hlt 0 (by decide)) .nil (.cons (hlt 6 (by decide)) hsum .nil)
  have hforest : Arena.Forest Set.univ failingChain [0, 6] :=
    ⟨_, hspans, by decide, fun _ _ => trivial⟩
  exact ⟨hforest, rfl, eval_join hforest⟩

end Evaluator

end RenderFold
