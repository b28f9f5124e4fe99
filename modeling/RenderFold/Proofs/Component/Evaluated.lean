import RenderFold.Component.Evaluator
import Mathlib.Data.List.Forall2

/-!
# Evaluation to Any Depth

Evaluation goes down a bounded number of layers. The bound decides whether
there is a result and nothing else: an expression that evaluates at some
depth evaluates to the same at every greater depth.

## Main definitions

* `Eval.Below`: Whatever the one computation gives, the other gives as well.

## Theorems

* `Eval.bind_eq_ok`: Computations in sequence, taken apart.
* `Eval.mapM_eq_ok`, `Eval.getElem?_of_mapM`: A list of computations, taken
  apart.
* `Evaluator.step_below`: A layer gives what it gives if its parts do.
* `Evaluator.eval_below`: Going deeper changes no result.
-/

namespace RenderFold

open Script (Tree Node)

namespace Eval

variable {α β : Type} {c c' : Nat}

theorem bind_eq_ok {x : Eval α} {f : α → Eval β} {b : β} (h : (x >>= f) c = .ok (b, c')) :
    ∃ a between, x c = .ok (a, between) ∧ f a between = .ok (b, c') := by
  change Except.bind (x c) (fun (a, between) => f a between) = .ok (b, c') at h
  cases hx : x c with
  | error e =>
      rw [hx] at h
      cases h
  | ok result =>
      rw [hx] at h
      exact ⟨result.1, result.2, rfl, h⟩

theorem bind_of_ok {x : Eval α} {f : α → Eval β} {a : α} (h : x c = .ok (a, c')) :
    (x >>= f) c = f a c' := by
  change Except.bind (x c) (fun (a, between) => f a between) = f a c'
  rw [h]
  rfl

theorem pure_eq_ok {a b : α} (h : (pure a : Eval α) c = .ok (b, c')) : a = b ∧ c = c' := by
  cases h
  exact ⟨rfl, rfl⟩

/-- The items of a list are worked through one after the other. -/
theorem mapM_eq_ok {f : α → Eval β} {xs : List α} :
    ∀ {c c' : Nat} {ys : List β}, xs.mapM f c = .ok (ys, c') →
      List.Forall₂ (fun x y => ∃ start stop, f x start = .ok (y, stop)) xs ys := by
  induction xs with
  | nil =>
      intro c c' ys h
      rw [List.mapM_nil] at h
      rw [← (pure_eq_ok h).1]
      exact .nil
  | cons x xs ih =>
      intro c c' ys h
      rw [List.mapM_cons] at h
      obtain ⟨y, between, hx, h⟩ := bind_eq_ok h
      obtain ⟨rest, last, hrest, h⟩ := bind_eq_ok h
      rw [← (pure_eq_ok h).1]
      exact .cons ⟨c, between, hx⟩ (ih hrest)

/-- Every item has its result at the same position. -/
theorem getElem?_of_mapM {f : α → Eval β} {xs : List α} {ys : List β} {x : α} {i : Nat}
    (h : xs.mapM f c = .ok (ys, c')) (hx : xs[i]? = some x) :
    ∃ y start stop, ys[i]? = some y ∧ f x start = .ok (y, stop) := by
  obtain ⟨hlength, hall⟩ := List.forall₂_iff_get.mp (mapM_eq_ok h)
  obtain ⟨hi, rfl⟩ := List.getElem?_eq_some_iff.mp hx
  obtain ⟨start, stop, hitem⟩ := hall i hi (hlength ▸ hi)
  exact ⟨_, start, stop, List.getElem?_eq_getElem _, hitem⟩

/-- Whatever the one computation gives, the other gives as well. -/
def Below (x y : Eval α) : Prop := ∀ ⦃c a c'⦄, x c = .ok (a, c') → y c = .ok (a, c')

namespace Below

theorem refl (x : Eval α) : Below x x := fun _ _ _ h => h

theorem bind {x y : Eval α} {f g : α → Eval β} (hx : Below x y) (hf : ∀ a, Below (f a) (g a)) :
    Below (x >>= f) (y >>= g) := by
  intro c b c' h
  obtain ⟨a, between, hxa, hfa⟩ := bind_eq_ok h
  rw [bind_of_ok (hx hxa)]
  exact hf a hfa

/-- The same computation, followed by others. -/
theorem after {x : Eval α} {f g : α → Eval β} (hf : ∀ a, Below (f a) (g a)) :
    Below (x >>= f) (x >>= g) :=
  bind (refl x) hf

/-- Other computations, followed by the same. -/
theorem before {x y : Eval α} {f : α → Eval β} (hx : Below x y) : Below (x >>= f) (y >>= f) :=
  bind hx fun a => refl (f a)

theorem mapM {f g : α → Eval β} (hf : ∀ a, Below (f a) (g a)) (xs : List α) :
    Below (xs.mapM f) (xs.mapM g) := by
  induction xs with
  | nil => exact refl _
  | cons x xs ih =>
      rw [List.mapM_cons, List.mapM_cons]
      exact bind (hf x) fun _ => before ih

end Below

end Eval

namespace Evaluator

open Eval (Below)

variable {setting : Setting} {recur deeper : Env → Tree → Eval Datum}

section Calls

variable {f g : List Datum → Eval Datum}

theorem eachItem_below (h : ∀ data, Below (f data) (g data)) (items : List Datum) :
    ∀ i, Below (eachItem f i items) (eachItem g i items) := by
  induction items with
  | nil => exact fun _ => .refl _
  | cons item rest ih => exact fun i => .bind (h _) fun _ => .before (ih (i + 1))

theorem eachNumber_below (h : ∀ data, Below (f data) (g data)) (count : Nat) :
    ∀ i, Below (eachNumber f i count) (eachNumber g i count) := by
  induction count with
  | zero => exact fun _ => .refl _
  | succ count ih => exact fun i => .bind (h _) fun _ => .before (ih (i + 1))

theorem eachField_below (h : ∀ data, Below (f data) (g data)) (fields : Fields Value) :
    ∀ i, Below (eachField f i fields) (eachField g i fields) := by
  induction fields with
  | nil => exact fun _ => .refl _
  | cons field rest ih => exact fun i => .bind (h _) fun _ => .before (ih (i + 1))

theorem each_below (h : ∀ data, Below (f data) (g data)) (subject : Datum) :
    Below (each f subject) (each g subject) := by
  unfold each
  split
  · exact eachItem_below h _ 0
  · exact eachItem_below h _ 0
  · exact eachItem_below h _ 0
  · exact eachField_below h _ 0
  · split
    · exact eachNumber_below h _ 0
    · exact .refl _
  · exact .refl _

end Calls

theorem callHelper_below (h : ∀ env t, Below (recur env t) (deeper env t)) (helper : Helper)
    (arguments : List Datum) :
    Below (callHelper setting recur helper arguments)
      (callHelper setting deeper helper arguments) := by
  unfold callHelper
  split
  -- A list is the one helper that calls a function.
  case h_8 => exact .before (each_below (fun _ => h _ _) _)
  all_goals exact .refl _

theorem call_below (h : ∀ env t, Below (recur env t) (deeper env t)) (env : Env) (callee : Tree)
    (arguments : List Tree) :
    Below (call setting recur env callee arguments) (call setting deeper env callee arguments) := by
  have harguments : Below (arguments.mapM (recur env)) (arguments.mapM (deeper env)) :=
    .mapM (h env) arguments
  refine .after fun found => ?_
  cases found with
  | some helper => exact .bind harguments (callHelper_below h helper)
  | none =>
      refine .bind (h env callee) fun called => ?_
      cases called with
      | closure serial params body closed => exact .bind harguments fun _ => h _ _
      | _ => exact .refl _

theorem operate_below (h : ∀ env t, Below (recur env t) (deeper env t)) (env : Env)
    (op : Script.BinaryOp) (left right : Tree) :
    Below (operate recur env op left right) (operate deeper env op left right) := by
  refine .bind (h env left) fun first => ?_
  cases op with
  | and =>
      dsimp only
      split
      · exact h env right
      · exact .refl _
  | or =>
      dsimp only
      split
      · exact .refl _
      · exact h env right
  | strictEq | strictNotEq | add => exact .before (h env right)

theorem properties_below (h : ∀ env t, Below (recur env t) (deeper env t)) (env : Env)
    (fields : List (String × Tree)) :
    ∀ out, Below (properties recur env out fields) (properties deeper env out fields) := by
  induction fields with
  | nil => exact fun _ => .refl _
  | cons field rest ih => exact fun _ => .bind (h env _) fun _ => ih _

/-- A layer gives what it gives if its parts do. -/
theorem step_below (h : ∀ env t, Below (recur env t) (deeper env t)) (env : Env)
    (node : Node Tree) : Below (step setting recur env node) (step setting deeper env node) := by
  cases node with
  | member target property => exact .before (h env target)
  | index target position => exact .bind (h env target) fun _ => .before (h env position)
  | call callee arguments => exact call_below h env callee arguments
  | array elements => exact .before (.mapM (h env) elements)
  | object fields => exact .before (properties_below h env fields [])
  | not argument => exact .before (h env argument)
  | binary op left right => exact operate_below h env op left right
  | conditional test consequent alternate =>
      refine .bind (h env test) fun datum => ?_
      split
      · exact h env consequent
      · exact h env alternate
  | _ => exact .refl _

/-- Going deeper changes no result. -/
theorem eval_below {depth : Nat} :
    ∀ {depth'} env t, depth ≤ depth' →
      Below (eval setting depth env t) (eval setting depth' env t) := by
  induction depth with
  | zero =>
      intro depth' env t _ c datum c' h
      cases h
  | succ depth ih =>
      intro depth' env t hle
      obtain ⟨depth', rfl⟩ := Nat.exists_eq_succ_of_ne_zero (Nat.ne_of_gt (Nat.zero_lt_of_lt hle))
      exact step_below (fun env t => ih env t (Nat.le_of_succ_le_succ hle)) env t.node

end Evaluator

end RenderFold
