import TreeWatch.Proofs.Path.Extension
import TreeWatch.Proofs.Roots.Naming

/-!
# Roots inside roots

No two roots have the same path, but one may lie inside another. What a table holds continues the
path of some root, and so a place with an entry that lies above a root is inside another one.
-/

namespace TreeWatch

open FileTree

namespace Roots

variable {tree : FileTree} {roots : Roots} {path source target : Path} {paths : List Path}

/-- A path lies strictly below that of a live root. -/
def Nests (roots : Roots) (path : Path) : Prop :=
  ∃ root ∈ roots.live, path.isBelow root.path = true ∧ path.same root.path = false

/-- A path continues that of a live root that is short enough for a table. -/
def ContinuedBy (roots : Roots) (path : Path) : Prop :=
  ∃ root ∈ roots.live, root.path.bytes.length ≤ pathMax ∧ root.path.Extends path

/-- Roots with absolute paths of their own. -/
structure Proper (roots : Roots) : Prop where
  absolute : ∀ root ∈ roots.live, root.path.isAbsolute = true
  distinct : roots.live.Pairwise fun a b => a.path.same b.path = false

theorem proper_of_ofPaths (hwf : tree.WellFormed) (h : ofPaths tree paths = .ok roots) :
    roots.Proper := by
  obtain ⟨hnamed, hnodup⟩ := ofPaths_eq_ok h
  refine ⟨fun root hroot => ?_, (List.pairwise_map.mp hnodup).imp_of_mem ?_⟩
  · obtain ⟨location, hpath, -⟩ := hnamed root hroot
    rw [hpath]
    exact isAbsolute_pathOf location
  · intro a b ha hb hne
    obtain ⟨first, hfirst, hgetFirst⟩ := hnamed a ha
    obtain ⟨second, hsecond, hgetSecond⟩ := hnamed b hb
    refine Bool.eq_false_iff.mpr fun hsame => hne ?_
    rw [hfirst, hsecond, same_pathOf_iff (hwf.isPlace hgetFirst) (hwf.isPlace hgetSecond)] at hsame
    subst hsame
    exact eq_of_get?_directory hgetFirst hgetSecond

theorem same_eq_false_of_mem_eraseP {live : List Root} {root : Root}
    (hdistinct : live.Pairwise fun a b => a.path.same b.path = false)
    (hroot : root ∈ live.eraseP (·.path.same path)) : root.path.same path = false := by
  rw [eraseP_eq_filter (once_of_distinct hdistinct path)] at hroot
  simpa using (List.mem_filter.mp hroot).2

namespace ContinuedBy

theorem of_root {root : Root} (hroot : root ∈ roots.live)
    (hshort : root.path.bytes.length ≤ pathMax) :
    roots.ContinuedBy root.path := ⟨root, hroot, hshort, .refl _⟩

theorem bounded (h : roots.ContinuedBy path) : roots.ContinuedBy path.bounded := by
  obtain ⟨root, hroot, hshort, hpath⟩ := h
  exact ⟨root, hroot, hshort, hpath.bounded hshort⟩

variable (hproper : roots.Proper)

include hproper

theorem child (h : roots.ContinuedBy path) {name : Bytes} (hname : slash ∉ name) :
    roots.ContinuedBy (path.child name) := by
  obtain ⟨root, hroot, hshort, hpath⟩ := h
  exact ⟨root, hroot, hshort, hpath.child (hproper.absolute root hroot) hname⟩

theorem walkPath (h : roots.ContinuedBy path) {names : Location} (hnames : IsPlace names) :
    roots.ContinuedBy (FileTree.walkPath path names) := by
  obtain ⟨root, hroot, hshort, hpath⟩ := h
  exact ⟨root, hroot, hshort, hpath.walkPath (hproper.absolute root hroot) fun name hname =>
    (hnames name hname).noSlash⟩

theorem components_ne_nil (h : roots.ContinuedBy path) : path.components ≠ [] := by
  obtain ⟨root, hroot, -, hpath⟩ := h
  rw [Path.components_of_isAbsolute (hpath.isAbsolute (hproper.absolute root hroot))]
  exact List.cons_ne_nil _ _

theorem moved? (htarget : roots.ContinuedBy target) (hsource : source.components ≠ [])
    {moved : Path} (hmoved : WatchTable.moved? source target path = some moved) :
    roots.ContinuedBy moved := by
  obtain ⟨root, hroot, hshort, hpath⟩ := htarget
  exact ⟨root, hroot, hshort, .moved? hsource hpath (hproper.absolute root hroot) hmoved⟩

/-- What lies strictly below a path that continues that of a root lies strictly below the root. -/
theorem nests (h : roots.ContinuedBy source) (hbelow : path.isBelow source = true)
    (hne : path.same source = false) : roots.Nests path := by
  obtain ⟨root, hroot, -, hpath⟩ := h
  have habove := hpath.isBelow (hproper.absolute root hroot)
  refine ⟨root, hroot, Path.isBelow_trans hbelow habove, ?_⟩
  rw [Path.isBelow_iff] at hbelow habove
  refine Bool.eq_false_iff.mpr fun hsame => ?_
  rw [Path.same, beq_iff_eq] at hsame
  have heq : source.components = path.components :=
    hbelow.eq_of_length_le (hsame ▸ habove.length_le)
  exact Bool.false_ne_true (hne.symm.trans (beq_iff_eq.mpr heq.symm))

end ContinuedBy

end Roots

end TreeWatch
