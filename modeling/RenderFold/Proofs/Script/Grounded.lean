import RenderFold.Proofs.Script.Reachable

/-!
# Ways Down That End

Parts may be shared, so there may be several ways down to an index. All of
them end, however, if none leads back to where it has been: then no way down
names an index twice, and an arena has only so many. An index of which this
holds is grounded, and everything that is read off below it by going down a
bounded number of steps is read off in full.

## Main definitions

* `Arena.Grounded`: Every way down leads to nodes, and none leads back.
* `Arena.EndsWithin`: No way down is longer than a bound.

## Theorems

* `Path.append`: One way down after another.
* `grounded_iff_endsWithin`: What is grounded ends within the size of the
  arena, and the other way round.
* `EndsWithin.treeTo_eq`: Nothing is cut off.
* `Grounded.tree_eq`: The tree below an index is put together from the trees
  below its parts.
* `Grounded.mem_visits_iff`: What is visited is what a way down leads to.
* `Grounded.same`: What is read off below an index stays if the nodes do.
-/

namespace RenderFold

namespace Script

namespace Arena

variable {arena after : Arena} {id root a b x : Id} {path other : List Nat} {bound : Nat}

/-- Every way down from an index leads to nodes, and none leads back to a node
    that it has passed. -/
structure Grounded (arena : Arena) (root : Id) : Prop where
  lt_size : ∀ path x, arena.Path root path x → x < arena.size
  acyclic : ∀ path x other, arena.Path root path x → arena.Path x other x → other = []

/-- Every way down from an index leads to nodes and ends in fewer steps than
    `bound`. -/
def EndsWithin (arena : Arena) : Nat → Id → Prop
  | 0, _ => False
  | bound + 1, id => id < arena.size ∧ ∀ part ∈ (arena.get id).children, arena.EndsWithin bound part

instance decidableEndsWithin (arena : Arena) : ∀ bound id, Decidable (arena.EndsWithin bound id)
  | 0, _ => inferInstanceAs (Decidable False)
  | bound + 1, id =>
    have := decidableEndsWithin arena bound
    inferInstanceAs (Decidable (id < arena.size ∧
      ∀ part ∈ (arena.get id).children, arena.EndsWithin bound part))

/-- One way down after another. -/
theorem Path.append (h : arena.Path a path b) (hrest : arena.Path b other x) :
    arena.Path a (path ++ other) x := by
  induction h with
  | here => exact hrest
  | down hpart _ ih => exact .down hpart (ih hrest)

namespace EndsWithin

theorem lt_size (h : arena.EndsWithin bound id) : id < arena.size := by
  cases bound with
  | zero => exact h.elim
  | succ bound => exact h.1

theorem ne_zero_of_le (h : arena.EndsWithin bound id) {depth : Nat} (hle : bound ≤ depth) :
    depth ≠ 0 := by
  rintro rfl
  rw [Nat.le_zero.mp hle] at h
  exact h.elim

/-- A way down ends with what is left of the bound. -/
theorem below (h : arena.EndsWithin bound a) (hpath : arena.Path a path x) :
    ∃ left, left + path.length = bound ∧ arena.EndsWithin left x := by
  induction hpath generalizing bound with
  | here => exact ⟨bound, rfl, h⟩
  | down hpart _ ih =>
      cases bound with
      | zero => exact h.elim
      | succ bound =>
          obtain ⟨left, hleft, hends⟩ := ih (h.2 _ (List.mem_of_getElem? hpart))
          refine ⟨left, ?_, hends⟩
          rw [List.length_cons]
          omega

/-- Nothing of a tree is cut off. -/
theorem treeTo_eq (h : arena.EndsWithin bound id) : ∀ {depth depth' : Nat}, bound ≤ depth →
    bound ≤ depth' → arena.treeTo depth id = arena.treeTo depth' id := by
  induction bound generalizing id with
  | zero => exact h.elim
  | succ bound ih =>
      intro depth depth' hdepth hdepth'
      obtain ⟨depth, rfl⟩ := Nat.exists_eq_add_one_of_ne_zero (h.ne_zero_of_le hdepth)
      obtain ⟨depth', rfl⟩ := Nat.exists_eq_add_one_of_ne_zero (h.ne_zero_of_le hdepth')
      rw [treeTo, treeTo, Node.map_congr fun part hpart =>
        ih (h.2 part hpart) (by omega : bound ≤ depth) (by omega : bound ≤ depth')]

/-- What a way down leads to is visited. -/
theorem mem_visitsTo (h : arena.EndsWithin bound a) (hpath : arena.Path a path x) :
    x ∈ arena.visitsTo bound a := by
  induction hpath generalizing bound with
  | here =>
      cases bound with
      | zero => exact h.elim
      | succ bound => exact List.mem_cons_self
  | down hpart _ ih =>
      cases bound with
      | zero => exact h.elim
      | succ bound =>
          have hmem := List.mem_of_getElem? hpart
          refine List.mem_cons_of_mem _ (List.mem_flatMap.mpr ⟨_, List.mem_reverse.mpr hmem, ?_⟩)
          exact ih (h.2 _ hmem)

/-- Where the nodes below have the same parts, the ways down end as well. -/
theorem congr (h : arena.EndsWithin bound id) (hsize : arena.size ≤ after.size)
    (hsame : ∀ path x, arena.Path id path x → (after.get x).children = (arena.get x).children) :
    after.EndsWithin bound id := by
  induction bound generalizing id with
  | zero => exact h.elim
  | succ bound ih =>
      refine ⟨Nat.lt_of_lt_of_le h.1 hsize, fun part hpart => ?_⟩
      rw [hsame [] id .here] at hpart
      obtain ⟨place, hplace⟩ := List.getElem?_of_mem hpart
      exact ih (h.2 part hpart) fun path x hpath => hsame (place :: path) x (.down hplace hpath)

end EndsWithin

/-- Where the nodes below are the same, so is the tree. -/
theorem treeTo_same (depth : Nat) : ∀ {id : Id},
    (∀ path x, arena.Path id path x → after.get x = arena.get x) →
      after.treeTo depth id = arena.treeTo depth id := by
  induction depth with
  | zero => exact fun _ => rfl
  | succ depth ih =>
      intro id hsame
      have hparts : ∀ part ∈ (arena.get id).children,
          after.treeTo depth part = arena.treeTo depth part := by
        intro part hpart
        obtain ⟨place, hplace⟩ := List.getElem?_of_mem hpart
        exact ih fun path x hpath => hsame (place :: path) x (.down hplace hpath)
      rw [treeTo, treeTo, hsame [] id .here, Node.map_congr hparts]

/-- A way down leads to what is visited. -/
theorem path_of_mem_visitsTo : ∀ {depth : Nat} {a : Id}, x ∈ arena.visitsTo depth a →
    ∃ path, arena.Path a path x
  | 0, _, h => absurd h List.not_mem_nil
  | depth + 1, a, h => by
      rcases List.mem_cons.mp h with rfl | h
      · exact ⟨[], .here⟩
      · obtain ⟨part, hpart, hx⟩ := List.mem_flatMap.mp h
        obtain ⟨path, hpath⟩ := path_of_mem_visitsTo hx
        obtain ⟨place, hplace⟩ := List.getElem?_of_mem (List.mem_reverse.mp hpart)
        exact ⟨place :: path, .down hplace hpath⟩

namespace Grounded

/-- What is below a grounded index is grounded as well. -/
theorem below (h : arena.Grounded root) (hpath : arena.Path root path x) : arena.Grounded x where
  lt_size _ y hy := h.lt_size _ y (hpath.append hy)
  acyclic _ y other hy := h.acyclic _ y other (hpath.append hy)

theorem part (h : arena.Grounded id) (hx : x ∈ (arena.get id).children) : arena.Grounded x := by
  obtain ⟨place, hplace⟩ := List.getElem?_of_mem hx
  exact h.below (.down hplace .here)

/-- A grounded index is not one of those that were passed on the way to it. -/
theorem not_passed {passed : List Id} (h : arena.Grounded id)
    (hpassed : ∀ a ∈ passed, ∃ place path, arena.Path a (place :: path) id) : id ∉ passed := by
  intro hmem
  obtain ⟨place, path, hpath⟩ := hpassed id hmem
  have hempty := h.acyclic [] id _ .here hpath
  cases hempty

/-- An index that is not among those passed leaves less than all of them. -/
theorem length_passed_lt {passed : List Id} (hnodup : passed.Nodup)
    (hlt : ∀ a ∈ passed, a < arena.size) (hid : id < arena.size) (hnew : id ∉ passed) :
    passed.length < arena.size := by
  have hsub : id :: passed ⊆ List.range arena.size := by
    intro a ha
    rcases List.mem_cons.mp ha with rfl | ha
    · exact List.mem_range.mpr hid
    · exact List.mem_range.mpr (hlt a ha)
  have hle := (List.subperm_of_subset (List.nodup_cons.mpr ⟨hnew, hnodup⟩) hsub).length_le
  rwa [List.length_range] at hle

/-- A way down from a grounded index names only indices that it has not passed
    yet, so it ends before there are none left. -/
theorem endsWithin_beyond {left : Nat} : ∀ {id : Id} {passed : List Id}, arena.Grounded id →
    passed.Nodup → (∀ a ∈ passed, a < arena.size) →
    (∀ a ∈ passed, ∃ place path, arena.Path a (place :: path) id) →
    arena.size ≤ left + passed.length → arena.EndsWithin left id := by
  -- By induction on the number of indices that were not passed yet. The index itself
  -- is one of them, and the next step passes it.
  induction left with
  | zero =>
      intro id passed h hnodup hlt hpassed hleft
      have hnew : id ∉ passed := h.not_passed hpassed
      have hless := length_passed_lt hnodup hlt (h.lt_size [] id .here) hnew
      omega
  | succ left ih =>
      intro id passed h hnodup hlt hpassed hleft
      have hid : id < arena.size := h.lt_size [] id .here
      have hnew : id ∉ passed := h.not_passed hpassed
      refine ⟨hid, fun part hpart => ?_⟩
      obtain ⟨place, hplace⟩ := List.getElem?_of_mem hpart
      refine ih (h.part hpart) (List.nodup_cons.mpr ⟨hnew, hnodup⟩)
        (List.forall_mem_cons.mpr ⟨hid, hlt⟩) ?_ ?_
      · refine List.forall_mem_cons.mpr ⟨⟨place, [], .down hplace .here⟩, fun a ha => ?_⟩
        obtain ⟨first, path, hpath⟩ := hpassed a ha
        exact ⟨first, path ++ [place], hpath.snoc hplace⟩
      · rw [List.length_cons]
        omega

theorem endsWithin (h : arena.Grounded id) : arena.EndsWithin arena.size id := by
  have hnone {P : Id → Prop} : ∀ a ∈ ([] : List Id), P a := fun _ ha => absurd ha List.not_mem_nil
  exact h.endsWithin_beyond List.nodup_nil hnone hnone (Nat.le_refl _)

end Grounded

/-- One way down that leads back can be gone any number of times. -/
theorem Path.again (h : arena.Path x other x) (count : Nat) :
    ∃ path, arena.Path x path x ∧ path.length = count * other.length := by
  induction count with
  | zero => exact ⟨[], .here, by rw [Nat.zero_mul, List.length_nil]⟩
  | succ count ih =>
      obtain ⟨path, hpath, hlength⟩ := ih
      refine ⟨path ++ other, hpath.append h, ?_⟩
      rw [List.length_append, hlength, Nat.succ_mul]

theorem EndsWithin.grounded (h : arena.EndsWithin bound root) : arena.Grounded root where
  lt_size path x hpath := by
    obtain ⟨left, -, hends⟩ := h.below hpath
    exact hends.lt_size
  acyclic path x other hpath hother := by
    obtain ⟨left, -, hends⟩ := h.below hpath
    obtain ⟨again, hagain, hlength⟩ := hother.again left
    obtain ⟨rest, hrest, hends'⟩ := hends.below hagain
    -- What leads back takes no step, or else some way down would be too long.
    cases other with
    | nil => rfl
    | cons place other =>
        have hpos : left * 1 ≤ left * (place :: other).length :=
          Nat.mul_le_mul_left left (Nat.succ_le_succ (Nat.zero_le _))
        cases rest with
        | zero => exact hends'.elim
        | succ rest => omega

/-- What is grounded ends within the size of the arena, whatever bound it is
    known to end within. -/
theorem grounded_iff_endsWithin : arena.Grounded root ↔ arena.EndsWithin arena.size root :=
  ⟨Grounded.endsWithin, EndsWithin.grounded⟩

instance decidableGrounded (arena : Arena) (root : Id) : Decidable (arena.Grounded root) :=
  decidable_of_iff _ grounded_iff_endsWithin.symm

namespace Grounded

/-- Going further down reads off the same tree. -/
theorem treeTo_eq (h : arena.Grounded id) {depth : Nat} (hdepth : arena.size ≤ depth) :
    arena.treeTo depth id = arena.tree id :=
  h.endsWithin.treeTo_eq hdepth (Nat.le_refl _)

/-- The tree below an index is its node with the trees below its parts. -/
theorem tree_eq (h : arena.Grounded id) : arena.tree id = .mk ((arena.get id).map arena.tree) := by
  rw [← h.treeTo_eq (Nat.le_succ _)]
  rfl

theorem mem_visits_iff (h : arena.Grounded root) :
    x ∈ arena.visits root ↔ ∃ path, arena.Path root path x :=
  ⟨path_of_mem_visitsTo, fun ⟨_, hpath⟩ => h.endsWithin.mem_visitsTo hpath⟩

/-- Where the nodes below have the same parts, nothing leads back either. -/
theorem congr (h : arena.Grounded id) (hsize : arena.size ≤ after.size)
    (hsame : ∀ path x, arena.Path id path x → (after.get x).children = (arena.get x).children) :
    after.Grounded id :=
  (h.endsWithin.congr hsize hsame).grounded

/-- Where the nodes below are the same, so is what is read off. -/
theorem same (h : arena.Grounded id) (hsize : arena.size ≤ after.size)
    (hsame : ∀ path x, arena.Path id path x → after.get x = arena.get x) :
    after.Grounded id ∧ after.tree id = arena.tree id :=
  ⟨h.congr hsize fun path x hpath => congrArg Node.children (hsame path x hpath),
    (treeTo_same after.size hsame).trans (h.treeTo_eq hsize)⟩

/-- A node over grounded parts is grounded. -/
theorem of_parts (hlt : id < arena.size)
    (h : ∀ part ∈ (arena.get id).children, arena.Grounded part) : arena.Grounded id :=
  have hends : arena.EndsWithin (arena.size + 1) id :=
    ⟨hlt, fun part hpart => (h part hpart).endsWithin⟩
  hends.grounded

end Grounded

/-- A tree is grounded: where a way led back, there would be two paths. -/
theorem IsTree.grounded (h : IsTree arena root) : arena.Grounded root where
  lt_size := h.lt_size
  acyclic _ x _ hpath hother :=
    List.append_right_eq_self.mp (h.unique _ _ x (hpath.append hother) hpath)

end Arena

end Script

end RenderFold
