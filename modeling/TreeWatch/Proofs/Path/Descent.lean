import TreeWatch.Proofs.Path.Place

/-!
# Going down from a path

What a path becomes when it is continued by names of entries: its components and its steps are
continued by these names, whatever the path itself looks like. A slash at its end is taken up, and a
path that is not normal stays as it is.
-/

namespace TreeWatch

open FileTree

variable {p q : Path} {name : Bytes} {names more : Location}

theorem IsPlace.head (h : IsPlace (name :: more)) : IsName name := h name List.mem_cons_self

theorem IsPlace.tail (h : IsPlace (name :: more)) : IsPlace more :=
  fun other hother => h other (List.mem_cons_of_mem _ hother)

theorem Component.ofSegment?_eq_none_iff {segment : Bytes} :
    ofSegment? segment = none ↔ segment = [] ∨ segment = dot := by
  unfold ofSegment?
  split_ifs with h <;> simp [h]

theorem Component.ofSegment?_name (h : IsName name) :
    Component.ofSegment? name = some (.name name) := by
  simp [ofSegment?, h.ne_nil, h.ne_dot, h.ne_dotDot]

namespace Path

theorem isAbsolute_name (h : IsName name) : (⟨name⟩ : Path).isAbsolute = false := by
  refine Bool.eq_false_iff.mpr fun habsolute => h.noSlash ?_
  rw [isAbsolute, beq_iff_eq] at habsolute
  exact List.mem_of_head? habsolute

theorem bytes_join (hq : q.isAbsolute = false) : (p.join q).bytes =
    if p.bytes = [] ∨ p.bytes.getLast? = some slash then p.bytes ++ q.bytes
    else p.bytes ++ slash :: q.bytes := by
  rw [join, if_neg (by simp [hq])]
  split <;> rfl

theorem bytes_join_ne_nil (hp : p.bytes ≠ []) : (p.join q).bytes ≠ [] := by
  cases hq : q.isAbsolute with
  | true =>
    rw [join, if_pos hq]
    intro hnil
    simp [isAbsolute, hnil] at hq
  | false =>
    rw [bytes_join hq]
    split <;> simp [hp]

theorem bytes_child (h : IsName name) : (p.child name).bytes =
    if p.bytes = [] ∨ p.bytes.getLast? = some slash then p.bytes ++ name
    else p.bytes ++ slash :: name :=
  bytes_join (isAbsolute_name h)

theorem bytes_child_ne_nil (hp : p.bytes ≠ []) (name : Bytes) : (p.child name).bytes ≠ [] :=
  bytes_join_ne_nil hp

theorem length_le_child (h : IsName name) : p.bytes.length ≤ (p.child name).bytes.length := by
  rw [bytes_child h]
  split <;> simp

theorem getLast?_child (h : IsName name) : (p.child name).bytes.getLast? ≠ some slash := by
  have hlast : (p.child name).bytes.getLast? = name.getLast? := by
    have hname := List.getLast?_eq_some_getLast h.ne_nil
    rw [bytes_child h]
    split <;> simp [hname, List.getLast?_cons]
  rw [hlast]
  exact fun heq => h.noSlash (List.mem_of_getLast? heq)

/-- The segments of a path are taken over, but for an empty one at the end. -/
theorem exists_segments_join (hp : p.bytes ≠ []) (hq : q.isAbsolute = false) : ∃ front, front ≠ [] ∧
    (p.segments = front ∨ p.segments = front ++ [[]]) ∧
    (p.join q).segments = front ++ q.segments := by
  rw [segments, segments, segments, bytes_join hq]
  by_cases hlast : p.bytes.getLast? = some slash
  · obtain ⟨front, hfront⟩ := List.getLast?_eq_some_iff.mp hlast
    refine ⟨splitAtEach slash front, splitAtEach_ne_nil _ _, .inr ?_, ?_⟩
    · rw [hfront, splitAtEach_append, splitAtEach]
    · rw [if_pos (.inr hlast), hfront, List.append_assoc, List.singleton_append, splitAtEach_append]
  · refine ⟨splitAtEach slash p.bytes, splitAtEach_ne_nil _ _, .inl rfl, ?_⟩
    rw [if_neg (not_or.mpr ⟨hp, hlast⟩), splitAtEach_append]

theorem lead_eq_nil_iff : p.lead = [] ↔ p.isAbsolute = false ∧ p.segments.head? ≠ some dot := by
  unfold lead
  cases p.isAbsolute <;> simp

theorem components_eq_nil_iff : p.components = [] ↔ p.bytes = [] := by
  constructor
  · intro h
    obtain ⟨hlead, hrest⟩ := List.append_eq_nil_iff.mp h
    obtain ⟨habsolute, hdot⟩ := lead_eq_nil_iff.mp hlead
    cases hbytes : p.bytes with
    | nil => rfl
    | cons x xs =>
      have hx : x ≠ slash := fun hx => by simp [isAbsolute, hbytes, hx] at habsolute
      obtain ⟨first, more, hsplit⟩ := List.exists_cons_of_ne_nil (splitAtEach_ne_nil slash xs)
      have hsegments : p.segments = (x :: first) :: more := by
        rw [segments, hbytes, splitAtEach, if_neg hx, hsplit]
      have hsilent := List.filterMap_eq_nil_iff.mp hrest (x :: first) (by simp [hsegments])
      have hfirst := (Component.ofSegment?_eq_none_iff.mp hsilent).resolve_left
        (List.cons_ne_nil x first)
      exact absurd (by rw [hsegments, hfirst]; rfl) hdot
  · intro h
    simp [components, lead, isAbsolute, segments, h, splitAtEach, Component.ofSegment?, dot]

/-- A path continued by one that starts nowhere has the components of both. -/
theorem components_join (hq : q.lead = []) :
    (p.join q).components = p.components ++ q.components := by
  have habsolute := (lead_eq_nil_iff.mp hq).1
  by_cases hp : p.bytes = []
  · have hjoin : p.join q = q := by
      rw [join, if_neg (by simp [habsolute]), if_pos (.inl hp), hp, List.nil_append]
    rw [hjoin, components_eq_nil_iff.mpr hp, List.nil_append]
  · obtain ⟨front, hne, hsegments, hjoin⟩ := exists_segments_join hp habsolute
    have hsame : (p.join q).isAbsolute = p.isAbsolute := by
      rw [isAbsolute, isAbsolute, bytes_join habsolute]
      split <;> rw [List.head?_append_of_ne_nil _ hp]
    have hhead : (p.join q).segments.head? = p.segments.head? := by
      rw [hjoin, List.head?_append_of_ne_nil _ hne]
      rcases hsegments with hsegments | hsegments
      · rw [hsegments]
      · rw [hsegments, List.head?_append_of_ne_nil _ hne]
    have hlead : (p.join q).lead = p.lead := by rw [lead, lead, hsame, hhead]
    have hrest : p.segments.filterMap Component.ofSegment? =
        front.filterMap Component.ofSegment? := by
      rcases hsegments with hsegments | hsegments
      · rw [hsegments]
      · simp [hsegments, Component.ofSegment?]
    rw [components, components, components, hlead, hq, hrest, hjoin, List.filterMap_append,
      List.append_assoc, List.nil_append]

theorem segments_name (h : IsName name) : (⟨name⟩ : Path).segments = [name] :=
  splitAtEach_of_notMem slash h.noSlash

theorem components_child (h : IsName name) :
    (p.child name).components = p.components ++ [.name name] := by
  have hlead : (⟨name⟩ : Path).lead = [] :=
    lead_eq_nil_iff.mpr ⟨isAbsolute_name h, by simp [segments_name h, h.ne_dot]⟩
  have hname : (⟨name⟩ : Path).components = [.name name] := by
    rw [components, hlead, segments_name h]
    simp [Component.ofSegment?_name h]
  rw [child, components_join hlead, hname]

/-- The steps of a path that say something. -/
def strides (p : Path) : List Bytes := p.segments.filter (· ≠ [])

theorem strides_child (hp : p.bytes ≠ []) (h : IsName name) :
    (p.child name).strides = p.strides ++ [name] := by
  obtain ⟨front, -, hsegments, hchild⟩ := exists_segments_join hp (isAbsolute_name h)
  have hfront : p.strides = front.filter (· ≠ []) := by
    rw [strides]
    rcases hsegments with hsegments | hsegments <;> simp [hsegments]
  rw [hfront, strides, child, hchild, segments_name h, List.filter_append]
  simp [h.ne_nil]

end Path

namespace FileTree

theorem walkPath_cons (p : Path) (name : Bytes) (more : Location) :
    walkPath p (name :: more) = walkPath (p.child name) more := rfl

theorem walkPath_append (p : Path) (names more : Location) :
    walkPath p (names ++ more) = walkPath (walkPath p names) more := List.foldl_append

theorem bytes_walkPath_ne_nil (hp : p.bytes ≠ []) (names : Location) :
    (walkPath p names).bytes ≠ [] := by
  induction names generalizing p with
  | nil => exact hp
  | cons name more ih => exact ih (Path.bytes_child_ne_nil hp name)

theorem length_le_walkPath (h : IsPlace names) :
    p.bytes.length ≤ (walkPath p names).bytes.length := by
  induction names generalizing p with
  | nil => exact Nat.le_refl _
  | cons name more ih => exact Nat.le_trans (Path.length_le_child h.head) (ih h.tail)

theorem length_walkPath_le_append (h : IsPlace more) :
    (walkPath p names).bytes.length ≤ (walkPath p (names ++ more)).bytes.length := by
  rw [walkPath_append]
  exact length_le_walkPath h

theorem components_walkPath (h : IsPlace names) :
    (walkPath p names).components = p.components ++ names.map .name := by
  induction names generalizing p with
  | nil => simp [walkPath]
  | cons name more ih =>
    rw [walkPath_cons, ih h.tail, Path.components_child h.head]
    simp

theorem exists_same_of_between (h : IsPlace names) (hbelow : (walkPath p names).isBelow q = true)
    (habove : p.isBelow q = false) :
    ∃ front back, names = front ++ back ∧ (walkPath p front).same q = true := by
  rw [Path.isBelow_iff, components_walkPath h] at hbelow
  have hnot : ¬ q.components <+: p.components := fun hprefix =>
    Bool.eq_false_iff.mp habove (Path.isBelow_iff.mpr hprefix)
  have hprefix := List.prefix_append p.components (names.map .name)
  obtain ⟨rest, hrest⟩ := (List.prefix_or_prefix_of_prefix hbelow hprefix).resolve_left hnot
  rw [← hrest, List.prefix_append_right_inj] at hbelow
  obtain ⟨after, hafter⟩ := hbelow
  obtain ⟨front, back, rfl, rfl, -⟩ := List.map_eq_append_iff.mp hafter.symm
  refine ⟨front, back, rfl, ?_⟩
  rw [Path.same, beq_iff_eq, components_walkPath h.left, hrest]

theorem stepsOf_walkPath (hp : p.bytes ≠ []) (hne : names ≠ []) (h : IsPlace names) :
    stepsOf (walkPath p names) = p.strides ++ names := by
  induction names generalizing p with
  | nil => exact absurd rfl hne
  | cons name more ih =>
    rw [walkPath_cons]
    by_cases hmore : more = []
    · subst hmore
      have hsteps : stepsOf (p.child name) = (p.child name).strides := by
        rw [stepsOf, if_neg (Path.getLast?_child h.head), List.append_nil, Path.strides]
      exact hsteps.trans (Path.strides_child hp h.head)
    · rw [ih (Path.bytes_child_ne_nil hp name) hmore h.tail, Path.strides_child hp h.head]
      simp

theorem contains_walkPath (hp : p.bytes.contains 0 = false) (h : IsPlace names) :
    (walkPath p names).bytes.contains 0 = false := by
  induction names generalizing p with
  | nil => exact hp
  | cons name more ih =>
    refine ih ?_ h.tail
    have hname := h.head.noNul
    rw [Path.bytes_child h.head]
    simp only [List.contains_eq_mem, decide_eq_false_iff_not] at hp ⊢
    split <;> simp [hp, hname, slash]

end FileTree

end TreeWatch
