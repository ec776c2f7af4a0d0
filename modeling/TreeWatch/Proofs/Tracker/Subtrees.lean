import TreeWatch.Proofs.Tracker.Draining
import TreeWatch.Proofs.Tracker.Dropping
import TreeWatch.Proofs.Tracker.Lasting
import TreeWatch.Proofs.Tracker.Retirements

/-!
# Giving up a subtree

Five things change together when a subtree is given up: slots, live watches, the queue, what is on
its way out, and roots. Each changes for the entries of the subtree alone. That no removal of a
watch ever fails rests on what every run keeps: an entry has a live watch of its own.
-/

namespace TreeWatch

namespace Tracker

open TreeWatch.Action
open FileTree (pathOf)

variable {t : Tracker} {path : Path} {tree : FileTree} {paths : List Path} {named : Roots}
  {source : Source} {policy : Policy} {history : List Transition} {admits : Transition → Prop}

/-- On every run the live roots have paths of their own. -/
theorem Run.distinct (hwf : tree.WellFormed) (hnamed : Roots.ofPaths tree paths = .ok named)
    (h : Run admits (ofRoots source named policy) history t) :
    t.roots.live.Pairwise fun a b => a.path.same b.path = false := by
  have hshrinks : named.ShrinksTo t.roots := stepLaw_shrinks.run h
  exact (Roots.proper_of_ofPaths hwf hnamed).distinct.sublist hshrinks.live_sublist

theorem ends_giveUpSubtree_exactly (path : Path) (moment : Moment)
    {failed : Fault → Tracker → Prop} :
    (giveUpSubtree path).Ends moment t
      (fun count u => count = (t.table.entries.filter fun entry => entry.path.isBelow path).length ∧
        u = t.withoutSubtree path) failed := by
  rw [ends_giveUpSubtree]
  exact ⟨t.table.length_slotsBelow path, rfl⟩

theorem Relinquishes.retired {u : Tracker} {dropped : List Entry} {left : List WatchId}
    (h : Relinquishes t dropped left u)
    (hdistinct : t.roots.live.Pairwise fun a b => a.path.same b.path = false) :
    let isLost : Root → Bool := fun root => dropped.any fun entry => root.path.same entry.path
    u.roots = t.roots.without isLost ∧
      u.counts.rootsRetired = t.counts.rootsRetired + (t.roots.live.filter isLost).length := by
  intro isLost
  have hroots : u.roots = t.roots.without isLost := by
    rw [h.roots, Roots.retireAll_eq_without hdistinct]
    simp only [List.any_map]
    rfl
  have hcounted := h.counted
  have hsplit := t.roots.live.length_eq_length_filter_add isLost
  rw [Roots.liveCount, Roots.liveCount, hroots, Roots.live_without] at hcounted
  exact ⟨hroots, by omega⟩

/-- Whatever happened before, giving up a subtree takes exactly its entries, and says how many these
are. No other slot changes. The watches of these entries that were not on their way out yet, and no
others, leave the source, which had them all: their ends are queued behind what waits, in slot
order, and they are on their way out from then on. The roots at the paths of these entries, and no
others, are retired and counted. -/
theorem giveUpSubtree_takes_exactly_the_subtree (hwf : tree.WellFormed)
    (hnamed : Roots.ofPaths tree paths = .ok named) (hlive : source.live = [])
    (h : Run admits (ofRoots source named policy) history t) (path : Path) (moment : Moment) :
    let u := (giveUpSubtree path moment t).state
    let dropped := t.table.entries.filter fun entry => entry.path.isBelow path
    let left := (dropped.map fun entry => entry.id).filter fun id => !t.draining.contains id
    let isLost : Root → Bool := fun root => dropped.any fun entry => root.path.same entry.path
    (giveUpSubtree path moment t).result = .ok dropped.length ∧
    t.table.size = dropped.length + u.table.size ∧
    (∀ slot entry, u.table.get? slot = some entry ↔
      t.table.get? slot = some entry ∧ entry.path.isBelow path = false) ∧
    left.Nodup ∧ (∀ id ∈ left, t.source.isLive id = true ∧ u.source.isLive id = false) ∧
    (∀ entry ∈ dropped, entry.id ∈ u.draining) ∧
    u = { t with
      source := { t.source with
        live := t.source.live.filter fun watch => !left.contains watch.1
        queue := t.source.queue ++ left.map fun id => .onWatch id .ignored
        removed := t.source.removed + left.length }
      table := u.table
      roots := t.roots.without isLost
      draining := t.draining ++ left
      counts := { t.counts with
        rootsRetired := t.counts.rootsRetired + (t.roots.live.filter isLost).length } } := by
  intro u dropped left isLost
  have hregistered := h.registered hlive
  have hisLive : ∀ entry ∈ t.table.entries, t.source.isLive entry.id = true := fun entry hentry =>
    (hregistered.live entry hentry).resolve_right (by simp)
  obtain ⟨count, hresult, rfl, hstate⟩ := (ends_giveUpSubtree_exactly path moment).exists_ok
  have hu : u = t.withoutSubtree path := hstate
  have hdrop : Relinquishes t dropped left u := by
    rw [hu]
    exact relinquishes_withoutSubtree path hregistered.ids fun entry hentry _ => hisLive
      entry hentry
  obtain ⟨hroots, hcount⟩ := hdrop.retired (h.distinct hwf hnamed)
  refine ⟨hresult, ?_, ?_, ?_, ?_, ?_, ?_⟩
  · rw [WatchTable.size_eq, WatchTable.size_eq, ← List.length_append]
    exact hdrop.entries.length_eq
  · intro slot entry
    rw [hu]
    exact get?_withoutSubtree
  · exact (hregistered.ids.sublist (List.filter_sublist.map _)).filter _
  · intro id hid
    obtain ⟨entry, hentry, rfl⟩ := List.mem_map.mp (List.mem_filter.mp hid).1
    refine ⟨hisLive entry (List.mem_filter.mp hentry).1, ?_⟩
    rw [hdrop.source, Source.isLive_without, List.contains_iff_mem.mpr hid, Bool.not_true,
      Bool.and_false]
  · exact fun entry hentry => hdrop.mem_draining hentry
  · conv_lhs => rw [hdrop.rest, hdrop.source, hdrop.draining, hroots, hcount]
    rfl

/-- `/r/a`, a root inside the root `/r`, is given up with what it holds; `/r/ab` stays. -/
theorem giveUpSubtree_takes_exactly_the_subtree_of_nested_root :
    let root := pathOf [[114]]
    let inner := pathOf [[114], [97]]
    let tree := (((FileTree.empty.putDirectory [[114]]).putDirectory [[114], [97]]).putDirectory
      [[114], [97], [120]]).putDirectory [[114], [97, 98]]
    let named : Roots := ⟨[some ⟨root, 1⟩, some ⟨inner, 2⟩], 0⟩
    let t := outcome (ofRoots .empty named ⟨true, .rescan⟩) [(⟨tree, 0⟩, .start)]
    let u := (giveUpSubtree inner ⟨tree, 0⟩ t).state
    Roots.ofPaths tree [root, inner] = .ok named ∧ t.table.size = 4 ∧
      (giveUpSubtree inner ⟨tree, 0⟩ t).result = .ok 2 ∧
      u.source.queue = [.onWatch ⟨2⟩ .ignored, .onWatch ⟨3⟩ .ignored] ∧
      u.source.live = [(⟨1⟩, 1), (⟨4⟩, 4)] ∧ u.draining = [⟨2⟩, ⟨3⟩] ∧
      u.roots = ⟨[some ⟨root, 1⟩, none], 1⟩ ∧ u.counts.rootsRetired = 1 ∧
      u.table.get? 3 = some ⟨⟨4⟩, pathOf [[114], [97, 98]]⟩ := by
  intro root inner tree named t u
  have hwf : tree.WellFormed := by decide +kernel
  have hnamed : Roots.ofPaths tree [root, inner] = .ok named := by decide +kernel
  have hrun : Run (fun _ => True) (ofRoots .empty named ⟨true, .rescan⟩)
      (transitions _ [(⟨tree, 0⟩, .start)]) t := run_transitions fun _ _ => trivial
  obtain ⟨hresult, -, hslots, -⟩ :=
    giveUpSubtree_takes_exactly_the_subtree hwf hnamed rfl hrun inner ⟨tree, 0⟩
  have hdropped : (t.table.entries.filter fun entry => entry.path.isBelow inner) =
      [⟨⟨2⟩, inner⟩, ⟨⟨3⟩, pathOf [[114], [97], [120]]⟩] := by decide +kernel
  rw [hdropped] at hresult
  exact ⟨hnamed, by decide +kernel, hresult, by decide +kernel, by decide +kernel,
    by decide +kernel, by decide +kernel, by decide +kernel, (hslots _ _).mpr (by decide +kernel)⟩

end Tracker

end TreeWatch
