import TreeWatch.FileTree.Walk
import TreeWatch.Proofs.Text.Stretches
import TreeWatch.WatchTable.Basic

/-!
# Paths of places

The path of a place spells the names that lead there, so it can be read back: its components are the
names behind the root, paths of places are the same only for the same place, and being below, taking
a child and moving below another place mean for such paths what they mean for places.
-/

namespace TreeWatch

namespace Path

variable {p q r : Path}

/-- Being below is having the components of the other path first. -/
theorem isBelow_iff : p.isBelow q = true ↔ q.components <+: p.components :=
  List.isPrefixOf_iff_prefix

theorem isBelow_refl (p : Path) : p.isBelow p = true := isBelow_iff.mpr List.prefix_rfl

theorem isBelow_congr (h : p.same q = true) (base : Path) : p.isBelow base = q.isBelow base := by
  rw [isBelow, isBelow, beq_iff_eq.mp h]

theorem isBelow_congr_base (h : p.same q = true) (path : Path) :
    path.isBelow p = path.isBelow q := by
  rw [isBelow, isBelow, beq_iff_eq.mp h]

theorem isBelow_trans (h : p.isBelow q = true) (h' : q.isBelow r = true) : p.isBelow r = true :=
  isBelow_iff.mpr ((isBelow_iff.mp h').trans (isBelow_iff.mp h))

end Path

/-- The names that an entry can have. -/
structure IsName (name : Bytes) : Prop where
  ne_nil : name ≠ []
  ne_dot : name ≠ dot
  ne_dotDot : name ≠ dotDot
  noSlash : slash ∉ name
  noNul : 0 ∉ name
  length_le : name.length ≤ FileTree.nameMax

instance (name : Bytes) : Decidable (IsName name) :=
  decidable_of_iff
    (name ≠ [] ∧ name ≠ dot ∧ name ≠ dotDot ∧ slash ∉ name ∧ 0 ∉ name ∧
      name.length ≤ FileTree.nameMax)
    ⟨fun ⟨h₁, h₂, h₃, h₄, h₅, h₆⟩ => ⟨h₁, h₂, h₃, h₄, h₅, h₆⟩,
      fun h => ⟨h.ne_nil, h.ne_dot, h.ne_dotDot, h.noSlash, h.noNul, h.length_le⟩⟩

/-- A place that a path can spell: every step is the name of an entry. -/
def IsPlace (location : Location) : Prop := ∀ name ∈ location, IsName name

instance (location : Location) : Decidable (IsPlace location) :=
  inferInstanceAs (Decidable (∀ name ∈ location, IsName name))

namespace IsPlace

variable {location : Location}

theorem nil : IsPlace [] := by simp [IsPlace]

theorem append {more : Location} (h : IsPlace location) (hmore : IsPlace more) :
    IsPlace (location ++ more) := by
  intro name hname
  rcases List.mem_append.mp hname with hname | hname
  · exact h name hname
  · exact hmore name hname

theorem left {more : Location} (h : IsPlace (location ++ more)) : IsPlace location :=
  fun name hname => h name (by simp [hname])

theorem right {more : Location} (h : IsPlace (location ++ more)) : IsPlace more :=
  fun name hname => h name (by simp [hname])

theorem concat {name : Bytes} (h : IsPlace location) (hname : IsName name) :
    IsPlace (location ++ [name]) :=
  h.append fun _ hmem => List.mem_singleton.mp hmem ▸ hname

theorem last {name : Bytes} (h : IsPlace (location ++ [name])) : IsName name :=
  h name (by simp)

end IsPlace

theorem isSilent_eq_false {name : Bytes} (h : IsName name) : isSilent name = false := by
  simp [isSilent, Component.ofSegment?, h.ne_nil, h.ne_dot, h.ne_dotDot]

namespace FileTree

variable {location a b : Location}

theorem bytes_pathOf (location : Location) :
    (pathOf location).bytes = slash :: joinWith slash location := rfl

theorem segments_pathOf (h : IsPlace location) :
    (pathOf location).segments = [] :: if location = [] then [[]] else location := by
  rw [Path.segments, bytes_pathOf, splitAtEach, if_pos rfl]
  split
  · next hl => rw [hl]; rfl
  · next hl => rw [splitAtEach_joinWith slash hl fun name hname => (h name hname).noSlash]

theorem isAbsolute_pathOf (location : Location) : (pathOf location).isAbsolute = true := rfl

theorem components_pathOf (h : IsPlace location) :
    (pathOf location).components = .root :: location.map .name := by
  have hnames : location.filterMap Component.ofSegment? = location.map .name := by
    induction location with
    | nil => rfl
    | cons name rest ih =>
      have hn := h name (by simp)
      have hc : Component.ofSegment? name = some (.name name) := by
        simp [Component.ofSegment?, hn.ne_nil, hn.ne_dot, hn.ne_dotDot]
      rw [List.filterMap_cons_some hc, ih fun other hother => h other (by simp [hother]),
        List.map_cons]
  rw [Path.components, Path.lead, if_pos (isAbsolute_pathOf location), segments_pathOf h]
  by_cases hl : location = []
  · simp [hl, Component.ofSegment?]
  · simp [hl, Component.ofSegment?, hnames]

theorem nameComponent_injective : Function.Injective Component.name :=
  fun _ _ h => Component.name.inj h

theorem same_pathOf_iff (ha : IsPlace a) (hb : IsPlace b) :
    (pathOf a).same (pathOf b) = true ↔ a = b := by
  rw [Path.same, beq_iff_eq, components_pathOf ha, components_pathOf hb, List.cons_inj_right]
  exact (List.map_injective_iff.mpr nameComponent_injective).eq_iff

theorem pathOf_inj (ha : IsPlace a) (hb : IsPlace b) : pathOf a = pathOf b ↔ a = b := by
  constructor
  · intro h
    rw [← same_pathOf_iff ha hb, h, Path.same_refl]
  · exact congrArg pathOf

/-- The paths of places are below one another as the places are. -/
theorem isBelow_pathOf_iff (ha : IsPlace a) (hb : IsPlace b) :
    (pathOf a).isBelow (pathOf b) = true ↔ b <+: a := by
  rw [Path.isBelow_iff, components_pathOf ha, components_pathOf hb,
    List.cons_prefix_cons]
  constructor
  · rintro ⟨-, h⟩
    exact (List.prefix_map_iff_of_injective nameComponent_injective).mp h
  · exact fun h => ⟨rfl, h.map _⟩

theorem getLast?_bytes_pathOf (h : IsPlace location) (hne : location ≠ []) :
    (pathOf location).bytes.getLast? ≠ some slash := by
  have hparts : ∀ name ∈ location, name ≠ [] := fun name hname => (h name hname).ne_nil
  have hjoin := joinWith_ne_nil slash hne hparts
  have hlast : (pathOf location).bytes.getLast? = (location.getLast hne).getLast? := by
    rw [← getLast?_joinWith slash hne hparts, bytes_pathOf]
    cases hj : joinWith slash location with
    | nil => exact absurd hj hjoin
    | cons x xs => simp [List.getLast?_cons]
  rw [hlast]
  intro hslash
  exact (h _ (List.getLast_mem hne)).noSlash (List.mem_of_getLast? hslash)

theorem joinWith_not_absolute (h : IsPlace location) :
    Path.isAbsolute ⟨joinWith slash location⟩ = false := by
  cases location with
  | nil => rfl
  | cons name rest =>
    have hname := h name (by simp)
    obtain ⟨x, xs, rfl⟩ := List.exists_cons_of_ne_nil hname.ne_nil
    have hx : x ≠ slash := fun hx => hname.noSlash (by simp [hx])
    have hhead : (joinWith slash ((x :: xs) :: rest)).head? = some x := by
      cases rest <;> rfl
    simp [Path.isAbsolute, hhead, hx]

theorem join_pathOf (ha : IsPlace a) (hb : IsPlace b) (hne : b ≠ []) :
    (pathOf a).join ⟨joinWith slash b⟩ = pathOf (a ++ b) := by
  rw [Path.join, if_neg (by simp [joinWith_not_absolute hb])]
  by_cases hnil : a = []
  · subst a
    rw [if_pos (by simp [bytes_pathOf, joinWith])]
    rfl
  · rw [if_neg (not_or.mpr ⟨by simp [bytes_pathOf], getLast?_bytes_pathOf ha hnil⟩), pathOf, pathOf,
      joinWith_append slash hnil hne]
    rfl

theorem child_pathOf (h : IsPlace location) {name : Bytes} (hname : IsName name) :
    (pathOf location).child name = pathOf (location ++ [name]) :=
  join_pathOf h (fun _ hmem => List.mem_singleton.mp hmem ▸ hname) (by simp)

theorem walkPath_pathOf (ha : IsPlace a) (hb : IsPlace b) :
    walkPath (pathOf a) b = pathOf (a ++ b) := by
  induction b generalizing a with
  | nil => simp [walkPath]
  | cons name rest ih =>
    have hname := hb name (by simp)
    have hrest : IsPlace rest := fun other hother => hb other (by simp [hother])
    rw [walkPath, List.foldl_cons, child_pathOf ha hname]
    have := ih (ha.concat hname) hrest
    rwa [walkPath, List.append_assoc, List.singleton_append] at this

/-- Whether the path of a place is short enough to be looked up. -/
def IsShort (location : Location) : Prop := (pathOf location).bytes.length < pathLimit

instance (location : Location) : Decidable (IsShort location) :=
  inferInstanceAs (Decidable (_ < _))

theorem bounded_pathOf (h : IsShort location) : (pathOf location).bounded = pathOf location := by
  have hlong : (pathOf location).isLong = false := by
    rw [Path.isLong, decide_eq_false_iff_not, Nat.not_lt]
    exact Nat.le_of_lt h
  simp [Path.bounded, hlong]

theorem length_pathOf_le_append (a b : Location) :
    (pathOf a).bytes.length ≤ (pathOf (a ++ b)).bytes.length := by
  by_cases ha : a = []
  · subst a
    simp [bytes_pathOf, joinWith]
  · by_cases hb : b = []
    · simp [hb]
    · rw [bytes_pathOf, bytes_pathOf, joinWith_append slash ha hb]
      simp

theorem IsShort.left (h : IsShort (a ++ b)) : IsShort a :=
  Nat.lt_of_le_of_lt (length_pathOf_le_append a b) h

end FileTree

namespace WatchTable

open FileTree

variable {a b c : Location}

theorem dropSteps_names (h : IsPlace a) (rest : List Bytes) :
    Path.dropSteps a.length (a ++ rest) = rest := by
  induction a with
  | nil => simp [Path.dropSteps]
  | cons name more ih =>
    have hsilent := isSilent_eq_false (h name (by simp))
    rw [List.length_cons, List.cons_append, Path.dropSteps, hsilent]
    exact ih fun other hother => h other (by simp [hother])

theorem dropWhile_isSilent (h : IsPlace a) : a.dropWhile isSilent = a := by
  cases a with
  | nil => rfl
  | cons name more => simp [isSilent_eq_false (h name (by simp))]

theorem dropWhileEnd_isSilent (h : IsPlace a) : dropWhileEnd isSilent a = a := by
  have hreverse : IsPlace a.reverse := fun name hname => h name (by simpa using hname)
  rw [dropWhileEnd, dropWhile_isSilent hreverse, List.reverse_reverse]

theorem after_pathOf (ha : IsPlace a) (hc : IsPlace c) :
    (pathOf (a ++ c)).after (pathOf a).components.length = ⟨joinWith slash c⟩ := by
  have hlead : (pathOf (a ++ c)).lead.length = 1 := by
    rw [Path.lead, if_pos (isAbsolute_pathOf _)]
    rfl
  have hsilent : isSilent [] = true := rfl
  rw [components_pathOf ha, Path.after, if_neg (by simp), hlead, segments_pathOf (ha.append hc),
    List.length_cons, List.length_map, Nat.add_sub_cancel]
  by_cases hnil : a ++ c = []
  · obtain ⟨rfl, rfl⟩ := List.append_eq_nil_iff.mp hnil
    rfl
  · rw [if_neg hnil]
    have hdrop : (Path.dropSteps a.length ([] :: (a ++ c))).dropWhile isSilent = c := by
      cases a with
      | nil => simp [Path.dropSteps, hsilent, dropWhile_isSilent hc]
      | cons name more =>
        rw [List.length_cons, Path.dropSteps, hsilent, if_pos rfl, ← List.length_cons,
          dropSteps_names ha, dropWhile_isSilent hc]
    rw [hdrop, dropWhileEnd_isSilent hc]
    rfl

/-- Moving a place to another takes everything below it along. -/
theorem moved?_pathOf (ha : IsPlace a) (hb : IsPlace b) (hc : IsPlace c) :
    moved? (pathOf a) (pathOf b) (pathOf (a ++ c)) = some (pathOf (b ++ c)) := by
  have hbelow : (pathOf (a ++ c)).isBelow (pathOf a) = true :=
    (isBelow_pathOf_iff (ha.append hc) ha).mpr (List.prefix_append a c)
  rw [moved?, Path.below?, if_pos hbelow, after_pathOf ha hc, Option.map_some]
  by_cases hnil : c = []
  · subst c
    simp [Path.isEmpty, joinWith]
  · have hjoin := joinWith_ne_nil slash hnil fun name hname => (hc name hname).ne_nil
    rw [if_neg (by simp [Path.isEmpty, hjoin]), join_pathOf hb hc hnil]

theorem moved?_pathOf_of_not_below (ha : IsPlace a) (hc : IsPlace c) (h : ¬ a <+: c)
    (target : Path) : moved? (pathOf a) target (pathOf c) = none := by
  have hbelow : (pathOf c).isBelow (pathOf a) = false := by
    rw [← Bool.not_eq_true, isBelow_pathOf_iff hc ha]
    exact h
  simp [moved?, Path.below?, hbelow]

end WatchTable

end TreeWatch
