import RenderFold.Proofs.Folding.LevelForests
import RenderFold.Proofs.Folding.Numbered

/-!
# Calls That Survive

Which calls still stand in a function is looked at before they are numbered,
and the function is printed afterwards. Numbering writes into the data of the
calls, and may throw out a value that stood there. No call is lost with it,
because none of them stands below another.

A call can take a number if it has a first argument and its second one is
missing or written out as a list or an object. That it can does not change
while other calls are numbered, and so in the end its data holds its number.

## Main definitions

* `Program.Addressable`: A call that can take a number.
* `Program.Addresses`: The data of a call holds a number.

## Theorems

* `Program.survivors_placeAll`: The calls that survive are those that stand in
  the function when all of them are numbered.
* `Program.addresses_of_numbered`: Calls that can take a number hold it.
-/

namespace RenderFold

open Script (Arena Id)
open Script.Arena (Closed EditedIn Forest Spans helper?_eq_some_iff lt_size_of_get)

namespace Script.Arena.Path

variable {a b : Arena} {root x : Id} {path : List Nat} {zone : Set Id}

/-- A path that ends outside a zone has not been in it, and stays when the zone
    is edited. -/
theorem edit (h : a.Path root path x) (hclosed : Closed a zone) (hedit : EditedIn zone a b)
    (hx : x ∉ zone) : b.Path root path x := by
  induction h with
  | here => exact .here
  | @down id part x place path hpart hrest ih =>
      have hid : id ∉ zone := fun hin =>
        hx (hclosed.path_mem ((hclosed id hin).2 part (List.mem_of_getElem? hpart)) hrest)
      have hlt : id < a.size := by
        refine lt_size_of_get rfl fun heq => ?_
        rw [heq] at hpart
        cases hpart
      refine .down ?_ (ih hx)
      rw [hedit.same id hlt hid]
      exact hpart

/-- The last step of a path. -/
theorem last (h : a.Path root path x) : root = x ∧ path = [] ∨
    ∃ front place parent, path = front ++ [place] ∧ a.Path root front parent ∧
      (a.get parent).children[place]? = some x := by
  induction h with
  | here => exact Or.inl ⟨rfl, rfl⟩
  | @down id part x place path hpart hrest ih =>
      rcases ih with ⟨rfl, rfl⟩ | ⟨front, place', parent, rfl, hfront, hlast⟩
      · exact Or.inr ⟨[], place, id, rfl, .here, hpart⟩
      · exact Or.inr ⟨place :: front, place', parent, rfl, .down hpart hfront, hlast⟩

end Script.Arena.Path

namespace Program

variable {arena after : Arena} {call other function x : Id} {index : Nat}
  {calls survivors : List Id} {keepPlaces : Bool} {path : List Nat}

section Paths

/-- What does not stand below a call can still be reached when the call is
    numbered, and so can the call. -/
theorem place_path (hcall : Forest Set.univ arena [call])
    (hapart : x ≠ call → Forest Set.univ arena [call, x]) (hpath : arena.Path function path x)
    (index : Nat) : (place arena call index).Path function path x := by
  rcases hcall with ⟨span, hspan, hnodup, -⟩
  have hclosed : Closed arena {y | y ∈ span} := fun y hy =>
    ⟨hspan.lt_size y hy, fun part hpart => hspan.closed hy hpart⟩
  have hedit := place_editedIn hclosed (hspan.subset List.mem_cons_self) index
  by_cases heq : x = call
  · subst heq
    rcases hpath.last with ⟨rfl, rfl⟩ | ⟨front, place, parent, rfl, hfront, hlast⟩
    · exact .here
    · -- The node around the call is not below it.
      have hout : parent ∉ {y | y ∈ span} := fun hin =>
        hspan.not_part hnodup hin (List.mem_of_getElem? hlast) List.mem_cons_self
      have hlt : parent < arena.size := by
        refine lt_size_of_get rfl fun heq => ?_
        rw [heq] at hlast
        cases hlast
      refine (hfront.edit hclosed hedit hout).snoc ?_
      rw [hedit.same parent hlt hout]
      exact hlast
  · refine hpath.edit hclosed hedit fun hin => ?_
    rcases hapart heq with ⟨_, hboth, hnodup', -⟩
    rcases hboth.of_cons with ⟨span', others, hspan', hothers, rfl⟩
    have hin' : x ∈ span' := by
      rw [hspan'.unique hspan]
      exact hin
    exact (List.nodup_append.mp hnodup').2.2 x hin' x (hothers.subset List.mem_cons_self) rfl

/-- No call is lost when calls are numbered. -/
theorem placeAll_path : ∀ {arena : Arena} {index : Nat}, Forest Set.univ arena [x] →
    (∀ call ∈ calls, x ≠ call → Forest Set.univ arena [call, x]) →
    arena.Path function path x →
    (placeAll survivors keepPlaces arena index calls).Path function path x := by
  induction calls with
  | nil => exact fun _ _ hpath => hpath
  | cons call rest ih =>
      intro arena index hx hapart hpath
      have hrest : ∀ call ∈ rest, x ≠ call → Forest Set.univ arena [call, x] :=
        fun call hmem => hapart call (List.mem_cons_of_mem _ hmem)
      unfold placeAll
      split
      · have hcall : Forest Set.univ arena [call] := by
          by_cases heq : x = call
          · exact heq ▸ hx
          · exact (hapart call List.mem_cons_self heq).subperm
              (List.singleton_sublist.mpr List.mem_cons_self).subperm
        have hkeeps := place_keepsForests arena call index
        exact ih (hkeeps.forest hx) (fun other hmem hne => hkeeps.forest (hrest other hmem hne))
          (place_path hcall (hapart call List.mem_cons_self) hpath index)
      · exact ih hx hrest hpath

/-- The calls that survive are those that stand in the function when all of them
    have been numbered. -/
theorem survivors_placeAll (hvalid : Closed arena {id | id < arena.size})
    (hfunction : Forest Set.univ arena [function]) (hcalls : Forest Set.univ arena calls) :
    Program.survivors
        (placeAll (Program.survivors arena function calls) keepPlaces arena 0 calls) function calls =
      Program.survivors arena function calls := by
  have htree := hfunction.isTree List.mem_cons_self
  have htree' := ((placeAll_keepsForests (Program.survivors arena function calls) keepPlaces calls
    arena 0).forest hfunction).isTree List.mem_cons_self
  have helements : ∀ a ∈ calls, (Program.survivors arena function calls).contains a = true →
      arena.helper? a = some .element := fun _ _ => survivors_element
  refine List.filter_congr fun call hcall => Bool.eq_iff_iff.mpr ⟨fun h => ?_, fun h => ?_⟩
  · rcases Bool.and_eq_true_iff.mp h with ⟨hreached, helement⟩
    rcases htree'.mem_reachable_iff.mp (List.contains_iff_mem.mp hreached) with ⟨path, hpath⟩
    exact (List.mem_filter.mp (mem_survivors_of_path hvalid htree hcall (hcalls.mem hcall).2 hpath
      (of_decide_eq_true helement))).2
  · rcases Bool.and_eq_true_iff.mp h with ⟨hreached, helement⟩
    rcases htree.mem_reachable_iff.mp (List.contains_iff_mem.mp hreached) with ⟨path, hpath⟩
    have hone : Forest Set.univ arena [call] :=
      hcalls.subperm (List.singleton_sublist.mpr hcall).subperm
    have hapart : ∀ other ∈ calls, call ≠ other → Forest Set.univ arena [other, call] := by
      intro other hother hne
      refine hcalls.subperm (List.subperm_of_subset ?_ ?_)
      · exact List.nodup_cons.mpr ⟨fun hin => hne (List.mem_singleton.mp hin).symm,
          List.nodup_singleton call⟩
      · intro y hy
        rcases List.mem_cons.mp hy with rfl | hy
        · exact hother
        · exact List.mem_singleton.mp hy ▸ hcall
    refine Bool.and_eq_true_iff.mpr ⟨List.contains_iff_mem.mpr
      (htree'.mem_reachable_iff.mpr ⟨path, placeAll_path hone hapart hpath⟩), decide_eq_true ?_⟩
    exact placeAll_helper? 0 hvalid helements (of_decide_eq_true helement)

end Paths

section Data

/-- A call that can take a number: it has a first argument, and its second one
    is missing or written out as an object or a list. -/
def Addressable (arena : Arena) (call : Id) : Prop :=
  arena.arguments call ≠ [] ∧ ∀ data, (arena.arguments call)[1]? = some data →
    (∃ properties, arena.get data = .object properties) ∨
      ∃ elements, arena.get data = .array elements

/-- The first number that the data of a call names as its place is `index`. -/
def Addresses (arena : Arena) (call : Id) (index : Nat) : Prop :=
  ∃ data properties value, (arena.arguments call)[1]? = some data ∧
    arena.get data = .object properties ∧ Fields.get? properties "treeSlot" = some value ∧
    arena.get value = .num (Float.ofNat index).toBits

/-- A numbered call that can take a number holds it. -/
theorem addresses_of_numbered (h : Numbered arena call index) (hcall : Addressable arena call) :
    Addresses arena call index := by
  rcases h with hnone | ⟨data, hdata, ⟨properties, value, hobject, hget, hvalue⟩ | ⟨hobject, hlist⟩⟩
  · exact absurd hnone hcall.1
  · exact ⟨data, properties, value, hdata, hobject, hget, hvalue⟩
  · rcases hcall.2 data hdata with ⟨properties, hproperties⟩ | ⟨elements, helements⟩
    · exact absurd hproperties (hobject properties)
    · exact absurd helements (hlist elements)

/-- A call that can take a number still can when a call is numbered. -/
theorem Placing.addressable (h : Placing arena call index after)
    (hvalid : Closed arena {id | id < arena.size}) (hcall : arena.helper? call = some .element)
    (helement : arena.helper? other = some .element) (hother : Addressable arena other) :
    Addressable after other := by
  rcases helper?_eq_some_iff.mp hcall with ⟨called, given, -, hgiven, -, -⟩
  rcases helper?_eq_some_iff.mp helement with ⟨callee, arguments, -, hget, -, -⟩
  have hlt : other < arena.size := lt_size_of_get hget fun h => by cases h
  have harguments : arena.arguments other = arguments := by rw [Arena.arguments, hget]
  rw [Addressable, harguments] at hother
  have hdata_lt : ∀ data ∈ arguments, data < arena.size := fun data hdata => by
    refine (hvalid other hlt).2 data ?_
    rw [hget]
    exact List.mem_cons_of_mem _ hdata
  -- The data of any call keeps its form, since the call that is numbered is neither an
  -- object nor a list.
  have hform : ∀ data, data ∈ arguments →
      (∃ properties, arena.get data = .object properties) ∨
        (∃ elements, arena.get data = .array elements) →
      (∃ properties, after.get data = .object properties) ∨
        ∃ elements, after.get data = .array elements := by
    intro data hdata hbefore
    have hne : data ≠ call := fun heq => by
      rw [heq, hgiven] at hbefore
      rcases hbefore with ⟨_, h⟩ | ⟨_, h⟩ <;> cases h
    cases h with
    | left _ hsame =>
        rw [hsame data (hdata_lt data hdata)]
        exact hbefore
    | @data changed _ _ _ _ hafter _ hsame =>
        by_cases heq : data = changed
        · exact Or.inl ⟨_, heq ▸ hafter⟩
        · rw [hsame data (hdata_lt data hdata) heq]
          exact hbefore
    | call _ _ _ _ _ hsame =>
        rw [hsame data (hdata_lt data hdata) hne]
        exact hbefore
  have hkept (hafter : after.get other = .call callee arguments) : Addressable after other := by
    rw [Addressable, Arena.arguments, hafter]
    exact ⟨hother.1, fun data hdata =>
      hform data (List.mem_of_getElem? hdata) (hother.2 data hdata)⟩
  by_cases heq : other = call
  · subst heq
    cases h with
    | left _ hsame => exact hkept ((hsame other hlt).trans hget)
    | @data changed _ properties _ hbefore _ _ hsame =>
        refine hkept ((hsame other hlt fun heq => ?_).trans hget)
        rw [← heq, hget] at hbefore
        cases hbefore
    | call hbefore hafter _ hdata _ _ =>
        rw [Addressable, Arena.arguments, hafter]
        refine ⟨List.cons_ne_nil _ _, fun found hfound => Or.inl ?_⟩
        cases hfound
        exact ⟨_, hdata⟩
  · exact hkept (h.other_eq hget heq)

theorem placeAll_addressable : ∀ {arena : Arena} {index : Nat},
    Closed arena {id | id < arena.size} →
    (∀ a ∈ calls, survivors.contains a = true → arena.helper? a = some .element) →
    arena.helper? other = some .element → Addressable arena other →
    Addressable (placeAll survivors keepPlaces arena index calls) other := by
  induction calls with
  | nil => exact fun _ _ _ hother => hother
  | cons first rest ih =>
      intro arena index hvalid hcalls helement hother
      unfold placeAll
      by_cases hsurvives : survivors.contains first = true
      · rw [if_pos hsurvives]
        have hfirst := hcalls first List.mem_cons_self hsurvives
        have hplacing := place_placing index hvalid hfirst
        rcases helper?_eq_some_iff.mp hfirst with ⟨callee, arguments, -, hget, -, -⟩
        have hlt : first < arena.size := lt_size_of_get hget fun h => by cases h
        exact ih (closed_place _ hvalid hlt) (fun a ha hin => hplacing.helper?_eq hfirst
          (hcalls a (List.mem_cons_of_mem _ ha) hin)) (hplacing.helper?_eq hfirst helement)
          (hplacing.addressable hvalid hfirst helement hother)
      · rw [if_neg hsurvives]
        exact ih hvalid (fun a ha => hcalls a (List.mem_cons_of_mem _ ha)) helement hother

end Data

end Program

end RenderFold
