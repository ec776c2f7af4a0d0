import TreeWatch.Proofs.Path.Remainder
import TreeWatch.Proofs.Tracker.Effects
import TreeWatch.Proofs.WatchTable.Duplicates
import TreeWatch.Proofs.WatchTable.Storage
import Mathlib.Data.List.Sort

/-!
# Moving a subtree in a watch table

When a directory moves, the entries at and below it are rewritten in place and no other entry is
touched. What decides is components and not spelling: a slash too many, a dot inside or a sibling
whose name begins alike make no difference, and neither does one place lying below the other. If
nothing lies at the new place, the move can be taken back.
-/

namespace TreeWatch

variable {source target path joined : Path} {rest : List Component}

namespace Path

/-- `joined` lies to `target` as `path` lies to `source`: `rest` is what both have behind it. What
is put behind `target` is spelt as it is in `path`, and nothing is put there for the place
itself. -/
structure Rebased (source target path joined : Path) (rest : List Component) : Prop where
  from_source : path.components = source.components ++ rest
  to_target : joined.components = target.components ++ rest
  whole : rest = [] → joined = target
  part : rest ≠ [] → ∃ tail, joined = target.join tail ∧ tail.components = rest ∧
    tail.bytes <:+: path.bytes

theorem isEmpty_iff {p : Path} : p.isEmpty = true ↔ p.components = [] := by
  rw [components_eq_nil_iff, isEmpty, List.isEmpty_iff]

theorem same_eq_false_of_isBelow_ne {p q : Path} (base : Path)
    (h : p.isBelow base ≠ q.isBelow base) :
    p.same q = false :=
  Bool.eq_false_iff.mpr fun hsame => h (isBelow_congr hsame base)

end Path

namespace WatchTable

variable {table : WatchTable} {slot : Nat} {entry first second : Entry}

section Paths

theorem moved?_eq_none_iff : moved? source target path = none ↔ path.isBelow source = false := by
  rw [moved?, Option.map_eq_none_iff, Path.below?]
  cases path.isBelow source <;> simp

/-- What lies at or below the source moves to the same place below the target. -/
theorem exists_moved? (hsource : source.bytes ≠ []) (target : Path)
    (hbelow : path.isBelow source = true) :
    ∃ joined rest, moved? source target path = some joined ∧
      Path.Rebased source target path joined rest := by
  have hcount : source.components.length ≠ 0 := by
    simpa [Path.components_eq_nil_iff] using hsource
  obtain ⟨rest, hrest⟩ := Path.isBelow_iff.mp hbelow
  have hcomponents : (path.after source.components.length).components = rest := by
    rw [Path.components_after hcount, ← hrest, List.drop_left]
  rw [moved?, Path.below?, if_pos hbelow, Option.map_some]
  by_cases hnil : rest = []
  · subst hnil
    rw [if_pos (Path.isEmpty_iff.mpr hcomponents)]
    exact ⟨target, [], rfl, hrest.symm, (List.append_nil _).symm, fun _ => rfl,
      fun h => absurd rfl h⟩
  · rw [if_neg (mt Path.isEmpty_iff.mp (by rwa [hcomponents]))]
    refine ⟨_, rest, rfl, hrest.symm, ?_, fun h => absurd h hnil, fun _ => ?_⟩
    · rw [Path.components_join (Path.lead_after hcount path), hcomponents]
    · exact ⟨_, rfl, hcomponents, Path.isInfix_bytes_after hcount path⟩

end Paths

section Entries

theorem movedEntry_of_moved? (h : moved? source target entry.path = some joined) :
    movedEntry source target entry = ⟨entry.id, joined.bounded⟩ := by
  rw [movedEntry, h]

theorem map_id_get?_relocate (table : WatchTable) (source target : Path) (slot : Nat) :
    ((table.relocate source target).get? slot).map (·.id) = (table.get? slot).map (·.id) := by
  rw [get?_relocate, Option.map_map]
  congr 1
  exact funext (movedEntry_id source target)

theorem movedEntry_eta (source target : Path) (entry : Entry) :
    movedEntry source target entry = ⟨entry.id, (movedEntry source target entry).path⟩ := by
  rw [← movedEntry_id source target entry]

theorem get?_relocate_of_get? (source target : Path) (h : table.get? slot = some entry) :
    (table.relocate source target).get? slot = some ⟨entry.id,
      (movedEntry source target entry).path⟩ := by
  rw [get?_relocate, h, Option.map_some, movedEntry_eta]

theorem get?_relocate_of_not_below (target : Path) (h : table.get? slot = some entry)
    (hbelow : entry.path.isBelow source = false) :
    (table.relocate source target).get? slot = some entry := by
  rw [get?_relocate, h, Option.map_some, movedEntry_of_not_below hbelow]

/-- An entry at or below the source is found at the same place below the target, under a path that
is cut where it gets too long. -/
theorem exists_get?_relocate (hsource : source.bytes ≠ []) (target : Path) {id : WatchId}
    (h : table.get? slot = some ⟨id, path⟩) (hbelow : path.isBelow source = true) :
    ∃ joined rest, Path.Rebased source target path joined rest ∧
      (table.relocate source target).get? slot = some ⟨id, ⟨joined.bytes.take pathMax⟩⟩ ∧
      (joined.bytes.length ≤ pathMax →
        (table.relocate source target).get? slot = some ⟨id, joined⟩) := by
  obtain ⟨joined, rest, hmoved, hrebased⟩ := exists_moved? hsource target hbelow
  have hafter : (table.relocate source target).get? slot = some ⟨id,
      ⟨joined.bytes.take pathMax⟩⟩ := by
    rw [get?_relocate, h, Option.map_some, movedEntry_of_moved? hmoved, Path.bounded_eq_take]
  refine ⟨joined, rest, hrebased, hafter, fun hlength => ?_⟩
  rw [hafter, List.take_of_length_le hlength]

theorem length_slotsBelow_eq_moved (table : WatchTable) (source target : Path) :
    (table.slotsBelow source).length =
      (table.entries.filter fun entry => (moved? source target entry.path).isSome).length := by
  rw [length_slotsBelow]
  refine congrArg List.length (List.filter_congr fun entry _ => ?_)
  rw [Bool.eq_iff_iff, Option.isSome_iff_ne_none, ne_eq, moved?_eq_none_iff, Bool.not_eq_false]

end Entries

section Back

/-- A move that can be taken back: at the new place lies nothing but what moves there, and no path
gets too long, neither there nor on the way back. -/
structure Reversible (table : WatchTable) (source target : Path) : Prop where
  source_ne_nil : source.bytes ≠ []
  target_ne_nil : target.bytes ≠ []
  free : ∀ entry ∈ table.entries, entry.path.isBelow source = false →
    entry.path.isBelow target = false
  there : ∀ entry ∈ table.entries, ∀ joined ∈ moved? source target entry.path,
    joined.bytes.length ≤ pathMax
  back : ∀ entry ∈ (table.relocate source target).entries,
    ∀ joined ∈ moved? target source entry.path, joined.bytes.length ≤ pathMax

theorem components_movedEntry (hsource : source.bytes ≠ [])
    (hfits : ∀ joined ∈ moved? source target entry.path, joined.bytes.length ≤ pathMax)
    (hcomponents : entry.path.components = source.components ++ rest) :
    (movedEntry source target entry).path.components = target.components ++ rest := by
  have hbelow : entry.path.isBelow source = true :=
    Path.isBelow_iff.mpr ⟨rest, hcomponents.symm⟩
  obtain ⟨joined, found, hmoved, hrebased⟩ := exists_moved? hsource target hbelow
  have hfound : found = rest :=
    List.append_cancel_left (hrebased.from_source.symm.trans hcomponents)
  rw [movedEntry_of_moved? hmoved, Path.bounded_eq_take,
    List.take_of_length_le (hfits joined hmoved), ← hfound]
  exact hrebased.to_target

namespace Reversible

variable (h : table.Reversible source target)
include h

/-- What is below the new place after the move is what moved there. -/
theorem isBelow_movedEntry (hentry : entry ∈ table.entries) :
    (movedEntry source target entry).path.isBelow target = entry.path.isBelow source := by
  cases hbelow : entry.path.isBelow source with
  | false =>
    rw [movedEntry_of_not_below hbelow]
    exact h.free entry hentry hbelow
  | true =>
    obtain ⟨rest, hrest⟩ := Path.isBelow_iff.mp hbelow
    exact Path.isBelow_iff.mpr
      ⟨rest, (components_movedEntry h.source_ne_nil (h.there entry hentry) hrest.symm).symm⟩

theorem slotsBelow_relocate :
    (table.relocate source target).slotsBelow target = table.slotsBelow source := by
  refine (pairwise_slotsBelow _ _).eq_of_mem_iff (pairwise_slotsBelow _ _) fun slot => ?_
  rw [mem_slotsBelow_iff, mem_slotsBelow_iff]
  constructor
  · rintro ⟨moved, hmoved, hbelow⟩
    rw [get?_relocate] at hmoved
    obtain ⟨entry, hget, rfl⟩ := Option.map_eq_some_iff.mp hmoved
    rw [h.isBelow_movedEntry (mem_entries_of_get? hget)] at hbelow
    exact ⟨entry, hget, hbelow⟩
  · rintro ⟨entry, hget, hbelow⟩
    rw [← h.isBelow_movedEntry (mem_entries_of_get? hget)] at hbelow
    exact ⟨_, by rw [get?_relocate, hget, Option.map_some], hbelow⟩

theorem same_movedEntry (hfirst : first ∈ table.entries) (hsecond : second ∈ table.entries) :
    (movedEntry source target first).path.same (movedEntry source target second).path =
      first.path.same second.path := by
  by_cases hboth : first.path.isBelow source = second.path.isBelow source
  · cases hbelow : first.path.isBelow source with
    | false =>
      rw [movedEntry_of_not_below hbelow, movedEntry_of_not_below (hboth.symm.trans hbelow)]
    | true =>
      obtain ⟨rest, hrest⟩ := Path.isBelow_iff.mp hbelow
      obtain ⟨more, hmore⟩ := Path.isBelow_iff.mp (hboth.symm.trans hbelow)
      rw [Path.same, Path.same, components_movedEntry h.source_ne_nil (h.there first hfirst)
        hrest.symm, components_movedEntry h.source_ne_nil (h.there second hsecond) hmore.symm,
        ← hrest, ← hmore, Bool.eq_iff_iff, beq_iff_eq, beq_iff_eq, List.append_right_inj,
          List.append_right_inj]
  · have hmoved : (movedEntry source target first).path.isBelow target ≠
        (movedEntry source target second).path.isBelow target := by
      rwa [h.isBelow_movedEntry hfirst, h.isBelow_movedEntry hsecond]
    rw [Path.same_eq_false_of_isBelow_ne source hboth,
      Path.same_eq_false_of_isBelow_ne target hmoved]

/-- The way back leads to where an entry was. -/
theorem same_movedEntry_movedEntry (hentry : entry ∈ table.entries) :
    (movedEntry target source (movedEntry source target entry)).path.same entry.path = true := by
  have hthere := h.isBelow_movedEntry hentry
  cases hbelow : entry.path.isBelow source with
  | false =>
    rw [hbelow] at hthere
    rw [movedEntry_of_not_below hthere, movedEntry_of_not_below hbelow, Path.same_refl]
  | true =>
    obtain ⟨rest, hrest⟩ := Path.isBelow_iff.mp hbelow
    have hmoved : movedEntry source target entry ∈ (table.relocate source target).entries := by
      rw [entries_relocate]
      exact List.mem_map_of_mem hentry
    rw [Path.same, beq_iff_eq, ← hrest]
    exact components_movedEntry h.target_ne_nil (h.back _ hmoved)
      (components_movedEntry h.source_ne_nil (h.there entry hentry) hrest.symm)

theorem sharedPaths_relocate :
    (table.relocate source target).sharedPaths = [] ↔ table.sharedPaths = [] := by
  rw [sharedPaths_eq_nil_iff, sharedPaths_eq_nil_iff, entries_relocate, List.pairwise_map]
  exact List.Pairwise.iff_of_mem fun hfirst hsecond => by rw [h.same_movedEntry hfirst hsecond]

end Reversible

instance (table : WatchTable) (source target : Path) : Decidable (table.Reversible source target) :=
  decidable_of_iff (source.bytes ≠ [] ∧ target.bytes ≠ [] ∧ _ ∧ _ ∧ _)
    ⟨fun h => ⟨h.1, h.2.1, h.2.2.1, h.2.2.2.1, h.2.2.2.2⟩,
      fun h => ⟨h.source_ne_nil, h.target_ne_nil, h.free, h.there, h.back⟩⟩

end Back

end WatchTable

namespace Tracker

open WatchTable

/-- Moving entries touches exactly those at or below the old place. Their number is returned, every
slot keeps its watch, a slot of another place keeps its path as it is spelt, and each path that
moves becomes the new one followed by what it had behind the old one, cut where a path gets too
long. Only the components decide which these are: spellings, the root directory and places that lie
in one another are no exception. -/
theorem moveEntries_moves_exactly_the_subtree {old : Path} (hold : old.bytes ≠ []) (new : Path)
    (moment : Moment) (t : Tracker) :
    let u := (moveEntries old new moment t).state
    let below := t.table.slotsBelow old
    (moveEntries old new moment t).result = .ok below.length ∧ u = { t with table := u.table } ∧
    below.length = (t.table.entries.filter fun entry => (moved? old new entry.path).isSome).length ∧
    below.Pairwise (· < ·) ∧
    (∀ slot, slot ∈ below ↔
      ∃ entry, t.table.get? slot = some entry ∧ old.components <+: entry.path.components) ∧
    (∀ slot, slot ∉ below → u.table.get? slot = t.table.get? slot) ∧
    (∀ slot, (u.table.get? slot).map (·.id) = (t.table.get? slot).map (·.id)) ∧
    ∀ slot ∈ below, ∀ id path, t.table.get? slot = some ⟨id, path⟩ →
      ∃ joined rest, Path.Rebased old new path joined rest ∧
        u.table.get? slot = some ⟨id, ⟨joined.bytes.take 4096⟩⟩ ∧
        (joined.bytes.length ≤ 4096 → u.table.get? slot = some ⟨id, joined⟩) := by
  intro u below
  have hu : u = { t with table := t.table.relocate old new } := rfl
  have htable : u.table = t.table.relocate old new := by rw [hu]
  refine ⟨rfl, rfl, t.table.length_slotsBelow_eq_moved old new, t.table.pairwise_slotsBelow old, ?_,
    ?_, ?_, ?_⟩
  · intro slot
    rw [mem_slotsBelow_iff]
    simp only [Path.isBelow_iff]
  · intro slot hslot
    rw [htable]
    cases hget : t.table.get? slot with
    | none => rw [get?_relocate, hget, Option.map_none]
    | some entry =>
      have hbelow : entry.path.isBelow old = false :=
        Bool.eq_false_iff.mpr fun hbelow => hslot (mem_slotsBelow_iff.mpr ⟨entry, hget, hbelow⟩)
      exact get?_relocate_of_not_below new hget hbelow
  · intro slot
    rw [htable, map_id_get?_relocate]
  · intro slot hslot id path hget
    obtain ⟨entry, hentry, hbelow⟩ := mem_slotsBelow_iff.mp hslot
    obtain rfl := Option.some.inj (hget.symm.trans hentry)
    exact exists_get?_relocate hold new hget hbelow

/-- `/a//` moves to `/a/c` below itself: `/a` and `/a/./b/` go there, `/ab` stays, and so does a
free slot. -/
theorem moveEntries_moves_exactly_the_subtree_of_nesting :
    let old : Path := ⟨[47, 97, 47, 47]⟩
    let new : Path := ⟨[47, 97, 47, 99]⟩
    let path : Path := ⟨[47, 97, 47, 46, 47, 98, 47]⟩
    let table : WatchTable :=
      ⟨[some ⟨⟨1⟩, ⟨[47, 97]⟩⟩, none, some ⟨⟨2⟩, ⟨[47, 97, 98]⟩⟩, some ⟨⟨3⟩, path⟩], 4, 1,
        by decide⟩
    let t : Tracker := { ofRoots .empty ⟨[], 0⟩ ⟨true, .rescan⟩ with table }
    let u := (moveEntries old new ⟨.empty, 0⟩ t).state
    old.bytes ≠ [] ∧ (moveEntries old new ⟨.empty, 0⟩ t).result = .ok 2 ∧
      u.table.get? 2 = some ⟨⟨2⟩, ⟨[47, 97, 98]⟩⟩ ∧
      u.table.get? 3 = some ⟨⟨3⟩, ⟨[47, 97, 47, 99, 47, 98]⟩⟩ ∧
      ∃ joined rest, Path.Rebased old new path joined rest ∧
        u.table.get? 3 = some ⟨⟨3⟩, ⟨joined.bytes.take 4096⟩⟩ := by
  intro old new path table t u
  have hold : old.bytes ≠ [] := by decide
  obtain ⟨hresult, -, -, -, -, hother, -, hbelow⟩ :=
    moveEntries_moves_exactly_the_subtree hold new ⟨.empty, 0⟩ t
  have hslots : t.table.slotsBelow old = [0, 3] := by decide +kernel
  rw [hslots] at hresult
  obtain ⟨joined, rest, hrebased, hafter, -⟩ := hbelow 3 (by rw [hslots]; decide) ⟨3⟩ path rfl
  exact ⟨hold, hresult, hother 2 (by rw [hslots]; decide), by decide +kernel, joined, rest,
    hrebased, hafter⟩

/-- A move to a free place can be taken back: the slots below the new place are those that were
below the old one, entries share a path exactly if they did before, and the move in the other
direction takes as many entries and puts every one of them back to where it was, in its slot and
with its watch. That one of the places lies in the other does not matter. -/
theorem moveEntries_is_reversible {t : Tracker} {old new : Path} (h : t.table.Reversible old new)
    (moment later : Moment) :
    let u := (moveEntries old new moment t).state
    let v := (moveEntries new old later u).state
    u.table.slotsBelow new = t.table.slotsBelow old ∧
    (∀ slot other a b, t.table.get? slot = some a → t.table.get? other = some b →
      ∃ p q, u.table.get? slot = some ⟨a.id, p⟩ ∧ u.table.get? other = some ⟨b.id, q⟩ ∧
        (p.components = q.components ↔ a.path.components = b.path.components)) ∧
    (u.table.sharedPaths = [] ↔ t.table.sharedPaths = []) ∧
    (moveEntries new old later u).result = (moveEntries old new moment t).result ∧
    v = { t with table := v.table } ∧
    (∀ slot, t.table.get? slot = none → v.table.get? slot = none) ∧
    ∀ slot id path, t.table.get? slot = some ⟨id, path⟩ →
      ∃ back, v.table.get? slot = some ⟨id, back⟩ ∧ back.components = path.components := by
  intro u v
  have hu : u.table = t.table.relocate old new := rfl
  have hv : v.table = (t.table.relocate old new).relocate new old := rfl
  refine ⟨h.slotsBelow_relocate, ?_, h.sharedPaths_relocate, ?_, rfl, ?_, ?_⟩
  · intro slot other a b ha hb
    have hsame := h.same_movedEntry (mem_entries_of_get? ha) (mem_entries_of_get? hb)
    rw [Path.same, Path.same, Bool.eq_iff_iff, beq_iff_eq, beq_iff_eq] at hsame
    exact ⟨_, _, get?_relocate_of_get? old new ha, get?_relocate_of_get? old new hb, hsame⟩
  · have hcount : (u.table.slotsBelow new).length = (t.table.slotsBelow old).length := by
      rw [hu, h.slotsBelow_relocate]
    exact congrArg Except.ok hcount
  · intro slot hfree
    rw [hv, get?_relocate, get?_relocate, hfree]
    rfl
  · intro slot id path hget
    have hback := h.same_movedEntry_movedEntry (mem_entries_of_get? hget)
    rw [Path.same, beq_iff_eq, movedEntry_eta old new] at hback
    exact ⟨_, get?_relocate_of_get? new old (get?_relocate_of_get? old new hget), hback⟩

/-- `/a` moves to `/a/b` below itself and back, with `/a/b` in it from before, beside `/ab`. -/
theorem moveEntries_is_reversible_of_nesting :
    let old : Path := ⟨[47, 97]⟩
    let new : Path := ⟨[47, 97, 47, 98]⟩
    let table : WatchTable :=
      ⟨[some ⟨⟨1⟩, old⟩, some ⟨⟨2⟩, ⟨[47, 97, 98]⟩⟩, some ⟨⟨3⟩, new⟩], 3, 1, by decide⟩
    let t : Tracker := { ofRoots .empty ⟨[], 0⟩ ⟨true, .rescan⟩ with table }
    let u := (moveEntries old new ⟨.empty, 0⟩ t).state
    t.table.Reversible old new ∧ u.table.slotsBelow new = [0, 2] ∧ u.table.sharedPaths = [] ∧
      u.table.get? 2 = some ⟨⟨3⟩, ⟨[47, 97, 47, 98, 47, 98]⟩⟩ ∧
      (moveEntries new old ⟨.empty, 0⟩ u).result = .ok 2 := by
  intro old new table t u
  have h : t.table.Reversible old new := by decide +kernel
  obtain ⟨hslots, -, hshared, hresult, -⟩ := moveEntries_is_reversible h ⟨.empty, 0⟩ ⟨.empty, 0⟩
  have hbelow : t.table.slotsBelow old = [0, 2] := by decide +kernel
  refine ⟨h, hslots.trans hbelow, hshared.mpr (by decide +kernel), by decide +kernel,
    hresult.trans ?_⟩
  exact congrArg (fun slots => Except.ok slots.length) hbelow

end Tracker

end TreeWatch
