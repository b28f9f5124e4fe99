import RenderFold.Proofs.Folding.Faithful
import RenderFold.Proofs.Script.Accepted

/-!
# Functions Around What They Return

A render function that returns one expression, after statements that neither
return nor branch, renders what the expression gives. While the expression is
rewritten the rest of the function stays as it is, so with another expression in
its place the function renders what that gives among the same variables.

## Main definitions

* `Arena.Returns`: A function with a statement that returns an expression.
* `Arena.returning`: A function with some tree in the place of what it returns.

## Theorems

* `Arena.returns_of_singleReturn?`: A function whose root can be located.
* `Arena.Returns.later`: The rest of a function stays as it is.
* `RenderFunction.Tractable.locates`: What a function returns gives the node
  that the function renders.
-/

namespace RenderFold

open Script (Arena Id Tree)
open Script.Arena (Beneath Closed Follows Forest IsTree Outside added)
open Evaluator (Always)

/-- A statement that neither returns nor branches passes. -/
theorem Script.Statement.passes {t : Tree} (h : Script.Statement t) : t.passes = true ∨
    (∃ argument, t = .mk (.ret argument)) ∨
      ∃ test consequent alternate, t = .mk (.branch test consequent alternate) := by
  cases h with
  | declare | discard => exact .inl rfl
  | leave | ret => exact .inr (.inl ⟨_, rfl⟩)
  | branch | branchElse => exact .inr (.inr ⟨_, _, _, rfl⟩)

namespace Script.Arena

variable {arena a b c : Arena} {function statement root found : Id} {name : Option String}
  {params : List String} {front back statements : List Id} {marked : Set Id}

/-- A function with a statement that returns an expression. -/
structure Returns (arena : Arena) (function statement root : Id) (name : Option String)
    (params : List String) (front back : List Id) : Prop where
  function : arena.get function = .function name params (front ++ statement :: back)
  statement : arena.get statement = .ret (some root)

/-- A function with some tree in the place of what it returns. -/
def returning (arena : Arena) (name : Option String) (params : List String) (front back : List Id)
    (t : Tree) : Tree :=
  .mk (.function name params (front.map arena.tree ++ .mk (.ret (some t)) :: back.map arena.tree))

/-- Nothing is returned after a return. -/
theorem onlyReturn?_some {argument : Id}
    (h : arena.onlyReturn? (some argument) statements = some found) : argument = found := by
  induction statements with
  | nil => exact Option.some.inj h
  | cons first rest ih =>
      unfold onlyReturn? at h
      split at h
      · cases h
      · cases h
      · cases h
      · exact ih h

/-- The statement that returns, and those before it, which neither return nor
    branch. -/
theorem onlyReturn?_split (h : arena.onlyReturn? none statements = some found) :
    ∃ front statement back, statements = front ++ statement :: back ∧
      arena.get statement = .ret (some found) ∧
      ∀ x ∈ front, (∀ argument, arena.get x ≠ .ret argument) ∧
        ∀ test consequent alternate, arena.get x ≠ .branch test consequent alternate := by
  induction statements with
  | nil => cases h
  | cons first rest ih =>
      unfold onlyReturn? at h
      split at h
      · next argument hget =>
          rw [if_neg (by simp)] at h
          exact ⟨[], first, rest, rfl, onlyReturn?_some h ▸ hget, fun _ hx =>
            absurd hx List.not_mem_nil⟩
      · cases h
      · cases h
      · next hret hnone hbranch =>
          obtain ⟨front, statement, back, rfl, hget, hfront⟩ := ih h
          refine ⟨first :: front, statement, back, rfl, hget,
            List.forall_mem_cons.mpr ⟨⟨?_, hbranch⟩, hfront⟩⟩
          rintro (_ | argument) hget
          · exact hnone hget
          · exact hret argument hget

/-- A function whose root can be located returns it after statements that do not
    return. -/
theorem returns_of_singleReturn? (htree : IsTree arena function)
    (hgrammar : Function (arena.tree function)) (h : arena.singleReturn? function = some root) :
    ∃ statement name params front back,
      arena.Returns function statement root name params front back ∧
        arena.isNodeCall root = true ∧ ∀ x ∈ front, (arena.tree x).passes = true := by
  unfold singleReturn? at h
  split at h
  · next name params body hget =>
      obtain ⟨hreturn, hcall⟩ := Option.filter_eq_some_iff.mp h
      obtain ⟨front, statement, back, rfl, hstatement, hfront⟩ := onlyReturn?_split hreturn
      refine ⟨statement, name, params, front, back, ⟨hget, hstatement⟩, hcall, fun x hx => ?_⟩
      have hmem : x ∈ (arena.get function).children := by
        rw [hget]
        exact List.mem_append_left _ hx
      have hnode := (htree.part hmem).tree_eq
      rw [htree.tree_eq, hget] at hgrammar
      cases hgrammar with
      | mk hname hparams hbody =>
          have hpart := hbody (arena.tree x) (List.mem_map_of_mem (List.mem_append_left _ hx))
          obtain ⟨hnoret, hnobranch⟩ := hfront x hx
          rcases hpart.passes with
            hpasses | ⟨argument, hret⟩ | ⟨test, consequent, alternate, hbranch⟩
          · exact hpasses
          · rw [hnode] at hret
            cases hget : arena.get x <;> rw [hget] at hret <;> cases hret
            exact absurd hget (hnoret _)
          · rw [hnode] at hbranch
            cases hget : arena.get x <;> rw [hget] at hbranch <;> cases hbranch
            exact absurd hget (hnobranch _ _ _)
  · cases h

namespace Returns

/-- What is returned stands apart from everything else in the function. -/
theorem apart (h : a.Returns function statement root name params front back)
    (hforest : Forest Set.univ a [function]) :
    function ∉ a.Beneath [root] ∧ statement ∉ a.Beneath [root] ∧
      ∀ x ∈ front ++ back, a.Outside (a.Beneath [root]) x := by
  have hbody := hforest.without_root
  rw [List.append_nil, h.function] at hbody
  have hparts := (hbody.perm List.perm_middle).without_root
  rw [h.statement] at hparts
  have hroot : root ∈ (a.get statement).children := by
    rw [h.statement]
    exact List.mem_cons_self
  obtain ⟨i, hi⟩ := List.getElem?_of_mem hroot
  refine ⟨fun ⟨_, hid, path, hpath⟩ => ?_, fun ⟨_, hid, path, hpath⟩ => ?_, fun x hx => ?_⟩
  · obtain rfl := List.mem_singleton.mp hid
    exact hbody.path_mem (List.mem_append_right _ List.mem_cons_self) (.down hi hpath) rfl
  · obtain rfl := List.mem_singleton.mp hid
    exact hparts.path_mem List.mem_cons_self hpath rfl
  · exact .of_forest (hparts.perm List.perm_append_comm) hx

theorem tree_eq (h : a.Returns function statement root name params front back)
    (htree : IsTree a function) :
    a.tree function = a.returning name params front back (a.tree root) := by
  have hstatement : IsTree a statement := htree.part (by
    rw [h.function]
    exact List.mem_append_right _ List.mem_cons_self)
  rw [htree.tree_eq, h.function, Node.map, List.map_append, List.map_cons, hstatement.tree_eq,
    h.statement]
  rfl

/-- When there was work below what is returned, and some of it was marked and
    rewritten after that, the rest of the function is what it was. -/
theorem later (h : a.Returns function statement root name params front back)
    (hforest : Forest Set.univ a [function]) (hedit : Arena.EditedIn (a.Beneath [root]) a b)
    (hgrounded : b.Grounded function) (hfollows : Follows b c marked function)
    (hsize : b.size ≤ c.size)
    (hmarked : ∀ x ∈ marked, x ∈ a.Beneath [root] ∪ added a b ∧ c.Grounded x) :
    c.tree function = a.returning name params front back (c.tree root) ∧
      Follows b c marked root := by
  obtain ⟨hfunction, hstatement, hothers⟩ := h.apart hforest
  have hout : ∀ x, x < a.size → x ∉ a.Beneath [root] → x ∉ marked := fun x hlt hx hin =>
    (hmarked x hin).1.elim hx fun hnew => Nat.not_lt_of_le hnew.1 hlt
  have htree := hforest.isTree List.mem_cons_self
  have hltfunction := (hforest.mem List.mem_cons_self).2
  have hpart : ∀ x ∈ front ++ statement :: back, x ∈ (a.get function).children := fun x hx => by
    rw [h.function]
    exact hx
  have hmem : statement ∈ front ++ statement :: back :=
    List.mem_append_right _ List.mem_cons_self
  have hltstatement := (htree.part (hpart statement hmem)).grounded.lt_size [] statement .here
  have hgetfunction := (hedit.same function hltfunction hfunction).trans h.function
  have hgetstatement := (hedit.same statement hltstatement hstatement).trans h.statement
  obtain ⟨hwhole, hparts⟩ := hfollows.tree_eq hgrounded hsize (fun x hx => (hmarked x hx).2)
    (hout function hltfunction hfunction)
  rw [hgetfunction] at hwhole hparts
  obtain ⟨hreturn, hroot⟩ := (hparts statement hmem).tree_eq (hgrounded.part (by
    rw [hgetfunction]
    exact hmem)) hsize (fun x hx => (hmarked x hx).2) (hout statement hltstatement hstatement)
  rw [hgetstatement] at hreturn hroot
  have hsame : ∀ x ∈ front ++ back, c.tree x = a.tree x := by
    intro x hx
    have hx' : x ∈ front ++ statement :: back := by
      simp only [List.mem_append, List.mem_cons] at hx ⊢
      tauto
    have hold := (htree.part (hpart x hx')).grounded.same hedit.size_le ((hothers x hx).get hedit)
    refine (((hparts x hx').unmarked hold.1 hsize fun path y hpath hin => ?_).2).trans hold.2
    exact ((hothers x hx).later hedit path y hpath).2 (hmarked y hin).1
  refine ⟨?_, hroot root List.mem_cons_self⟩
  rw [hwhole, Node.map, List.map_append, List.map_cons, hreturn,
    List.map_congr_left fun x hx => hsame x (List.mem_append_left _ hx),
    List.map_congr_left fun x hx => hsame x (List.mem_append_right _ hx)]
  rfl

end Returns

end Script.Arena

section Located

variable {own : RenderFunction} {setting : Setting} {depth : Nat} {view : View} {arena : Arena}
  {function statement root : Id} {name : Option String} {params : List String}
  {front back : List Id}

/-- What a function returns gives the node that the function renders, and with
    another expression in its place the function renders what that gives. -/
theorem RenderFunction.Tractable.locates (h : own.Tractable)
    (hrun : Evaluator.runTo setting depth own.tree = .ok view)
    (hcopy : arena.tree function = own.tree) (htree : IsTree arena function)
    (hreturns : arena.Returns function statement root name params front back)
    (hcall : arena.isNodeCall root = true)
    (hpasses : ∀ x ∈ front, (arena.tree x).passes = true) :
    ∃ scene : Scene, scene.Locates depth false (arena.tree root) view ∧
      ∀ deeper t other, depth ≤ deeper →
        Always scene.setting scene.env scene.start deeper t (Datum.Shows other) →
        Evaluator.runTo setting deeper (arena.returning name params front back t) = .ok other := by
  have hown := hcopy.symm.trans (hreturns.tree_eq htree)
  have hreturn : Tree.mk (.ret (some (arena.tree root))) ∈ (front.map arena.tree ++
      .mk (.ret (some (arena.tree root))) :: back.map arena.tree) :=
    List.mem_append_right _ List.mem_cons_self
  have hgrammar := Script.parseFunction_function own.wasRead
  have hplain := h.plain
  have hdata := h.data
  change Script.Function own.tree at hgrammar
  rw [hown] at hrun hgrammar hplain hdata
  obtain ⟨env, start, holder, hnames, ⟨datum, stop, heval, hroot⟩, hagain⟩ :=
    Evaluator.runTo_return (List.forall_mem_map.mpr hpasses) hrun
  have hsettled : Scene.Settled ⟨setting, env, start⟩ := ⟨holder, fun helper hhelper =>
    hnames _ fun binding init hmem => h.names _ _ _ hown helper hhelper binding init
      (List.mem_append_left _ hmem)⟩
  have hstatement : IsTree arena statement := htree.part (by
    rw [hreturns.function]
    exact List.mem_append_right _ List.mem_cons_self)
  obtain ⟨_, ⟨serial, rfl⟩, halways, hraw⟩ := Evaluator.always_nodeCall holder (Nat.le_refl _)
    hsettled.names (hstatement.part (by rw [hreturns.statement]; exact List.mem_cons_self))
    hcall heval
  cases hroot
  refine ⟨⟨setting, env, start⟩, ⟨hsettled, ⟨view, halways, hraw, ?_⟩, ⟨?_, ?_⟩, ?_⟩,
    fun deeper t other hdeeper hother => ?_⟩
  · cases view with
    | text content raw => rw [Datum.asChild, Bool.or_false]
    | _ => rfl
  · cases hgrammar with
    | mk hname hparams hbody =>
        cases hbody _ hreturn with
        | ret hargument => exact hargument
  · exact (hplain.part hreturn).part List.mem_cons_self
  · exact (hdata.part hreturn).part List.mem_cons_self
  · obtain ⟨_, after, heval, ⟨serial, rfl⟩, -⟩ := hother start (Nat.le_refl _)
    exact hagain deeper t _ _ _ hdeeper heval

/-- A function with another expression in the place of what it returns can be
    printed if the expression can. -/
theorem RenderFunction.Tractable.printable (h : own.Tractable)
    (hcopy : arena.tree function = own.tree) (htree : IsTree arena function)
    (hreturns : arena.Returns function statement root name params front back) {t : Tree}
    (ht : t.Printable) :
    Script.Function (arena.returning name params front back t) ∧
      (arena.returning name params front back t).Plain := by
  have hown := hcopy.symm.trans (hreturns.tree_eq htree)
  have hgrammar := Script.parseFunction_function own.wasRead
  have hplain := h.plain
  change Script.Function own.tree at hgrammar
  rw [hown] at hgrammar hplain
  have hparts : ∀ {P : Tree → Prop}, (∀ s ∈ front.map arena.tree ++
      .mk (.ret (some (arena.tree root))) :: back.map arena.tree, P s) → P (.mk (.ret (some t))) →
      ∀ s ∈ front.map arena.tree ++ .mk (.ret (some t)) :: back.map arena.tree, P s := by
    simp only [List.mem_append, List.mem_cons]
    rintro P hall hret s (hs | rfl | hs)
    · exact hall s (.inl hs)
    · exact hret
    · exact hall s (.inr (.inr hs))
  refine ⟨?_, .mk rfl (hparts (fun s hs => hplain.part hs) (.mk rfl ?_))⟩
  · cases hgrammar with
    | mk hname hparams hbody => exact .mk hname hparams (hparts hbody (.ret ht.expression))
  · exact List.forall_mem_singleton.mpr ht.plain

end Located
end RenderFold
