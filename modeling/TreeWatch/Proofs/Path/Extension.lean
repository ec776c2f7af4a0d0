import TreeWatch.Proofs.Path.Remainder

/-!
# Paths that continue a path

A path continues another if it is spelt like it up to its end, or up to a slash there. Unlike being
below, which goes by components, this survives that a path is cut at the length limit: the cut may
hurt a name behind the beginning but not the beginning, as long as that is short enough itself.
-/

namespace TreeWatch

namespace Path

variable {base p q : Path}

/-- `p` is spelt like `base` up to its end, or up to a slash there. -/
def Extends (base p : Path) : Prop :=
  p = base ∨ ∃ front rest,
    (base.bytes = front ∨ base.bytes = front ++ [slash]) ∧ p.bytes = front ++ slash :: rest

theorem components_of_isAbsolute (h : p.isAbsolute = true) :
    p.components = .root :: p.segments.filterMap Component.ofSegment? := by
  rw [components, lead, if_pos h]
  rfl

theorem bytes_ne_nil (h : p.isAbsolute = true) : p.bytes ≠ [] := by
  intro hnil
  simp [isAbsolute, hnil] at h

namespace Extends

theorem refl (p : Path) : Extends p p := .inl rfl

theorem isAbsolute (h : Extends base p) (hbase : base.isAbsolute = true) : p.isAbsolute = true := by
  obtain rfl | ⟨front, rest, hfront, hp⟩ := h
  · exact hbase
  · cases front with
    | nil => simp [Path.isAbsolute, hp]
    | cons x xs =>
      have hx : x = slash := by
        rcases hfront with hfront | hfront <;> simpa [Path.isAbsolute, hfront] using hbase
      simp [Path.isAbsolute, hp, hx]

theorem isBelow (h : Extends base p) (hbase : base.isAbsolute = true) : p.isBelow base = true := by
  have habsolute := h.isAbsolute hbase
  rw [isBelow_iff]
  obtain rfl | ⟨front, rest, hfront, hp⟩ := h
  · exact List.prefix_rfl
  · rw [components_of_isAbsolute habsolute, components_of_isAbsolute hbase, List.cons_prefix_cons]
    refine ⟨rfl, ?_⟩
    have hsegments : base.segments.filterMap Component.ofSegment? =
        (splitAtEach slash front).filterMap Component.ofSegment? := by
      rcases hfront with hfront | hfront
      · rw [segments, hfront]
      · rw [segments, hfront, splitAtEach_append]
        simp [splitAtEach, Component.ofSegment?]
    rw [hsegments, segments, hp, splitAtEach_append, List.filterMap_append]
    exact List.prefix_append _ _

theorem join (h : Extends base p) (hbase : base.isAbsolute = true) (hq : q.isAbsolute = false) :
    Extends base (p.join q) := by
  rw [Path.join, if_neg (by simp [hq])]
  obtain rfl | ⟨front, rest, hfront, hp⟩ := h
  · by_cases hlast : p.bytes.getLast? = some slash
    · rw [if_pos (.inr hlast)]
      obtain ⟨front, hfront⟩ := List.getLast?_eq_some_iff.mp hlast
      exact .inr ⟨front, q.bytes, .inr hfront, by simp [hfront]⟩
    · rw [if_neg (not_or.mpr ⟨bytes_ne_nil hbase, hlast⟩)]
      exact .inr ⟨p.bytes, q.bytes, .inl rfl, rfl⟩
  · refine .inr ⟨front, ?_⟩
    split
    · exact ⟨rest ++ q.bytes, hfront, by simp [hp]⟩
    · exact ⟨rest ++ slash :: q.bytes, hfront, by simp [hp]⟩

theorem child (h : Extends base p) (hbase : base.isAbsolute = true) {name : Bytes}
    (hname : slash ∉ name) : Extends base (p.child name) := by
  refine h.join hbase (Bool.eq_false_iff.mpr fun habsolute => hname ?_)
  rw [Path.isAbsolute, beq_iff_eq] at habsolute
  exact List.mem_of_head? habsolute

theorem walkPath (h : Extends base p) (hbase : base.isAbsolute = true) {names : List Bytes}
    (hnames : ∀ name ∈ names, slash ∉ name) : Extends base (FileTree.walkPath p names) := by
  induction names generalizing p with
  | nil => exact h
  | cons name rest ih =>
    exact ih (h.child hbase (hnames name List.mem_cons_self)) fun other hother =>
      hnames other (List.mem_cons_of_mem _ hother)

theorem bounded (h : Extends base p) (hbase : base.bytes.length ≤ pathMax) :
    Extends base p.bounded := by
  rw [bounded_eq_take]
  obtain rfl | ⟨front, rest, hfront, hp⟩ := h
  · exact .inl (by rw [List.take_of_length_le hbase])
  · rw [hp]
    by_cases hlength : pathMax ≤ front.length
    · rw [List.take_append_of_le_length hlength]
      rcases hfront with hfront | hfront
      · rw [hfront] at hbase
        refine .inl ?_
        rw [List.take_of_length_le hbase, ← hfront]
      · rw [hfront, List.length_append, List.length_singleton] at hbase
        omega
    · obtain ⟨more, hmore⟩ := Nat.exists_eq_add_of_lt (Nat.lt_of_not_le hlength)
      refine .inr ⟨front, rest.take more, hfront, ?_⟩
      rw [hmore, Nat.add_assoc, List.take_length_add_append]
      rfl

end Extends

/-- Moving a path below another place makes it continue what that place continues. -/
theorem Extends.moved? {source target : Path} (hsource : source.components ≠ [])
    (htarget : Extends base target) (hbase : base.isAbsolute = true)
    (hmoved : WatchTable.moved? source target p = some q) : Extends base q := by
  obtain ⟨rest, hrest, rfl⟩ := Option.map_eq_some_iff.mp hmoved
  unfold below? at hrest
  split at hrest
  · obtain rfl := Option.some.inj hrest
    split
    · exact htarget
    · exact htarget.join hbase (lead_eq_nil_iff.mp (lead_after (by simpa using hsource) p)).1
  · exact absurd hrest (by simp)

end Path

end TreeWatch
