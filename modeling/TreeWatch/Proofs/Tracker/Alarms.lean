import TreeWatch.Proofs.Tracker.Accounting

/-!
# No false alarm

A tracker whose source is fed as a kernel feeds it: every event but an overflow is reported on a
live watch, and nothing more on a watch whose end is queued. Along every run of such a tracker
watches stay accounted for, whatever happens to the file tree, so no event ever makes the table look
wrong.
-/

namespace TreeWatch

namespace Tracker

open TreeWatch.Action

variable {moment : Moment} {t u : Tracker} {event : Event} {source : Source}

/-- Every watch that may still be spoken of is accounted for. -/
structure Accountable (t : Tracker) : Prop where
  live : ∀ watch ∈ t.source.live, t.Accounts watch.1
  queue : ∀ event ∈ t.source.queue, event.NeedsWatch → t.Accounts event.watch
  last : t.source.queue.Pairwise fun a b => a.kind = .ignored → b.NeedsWatch → b.watch ≠ a.watch
  rescans : t.policy.overflow = .rescan

namespace Accountable

theorem of_keeps (h : t.Accountable) (hu : Keeps t u) : u.Accountable := by
  obtain ⟨more, hqueue, hkind⟩ := hu.queue
  have hlast : ∀ event ∈ more, ¬ event.NeedsWatch :=
    fun event hmem hneeds => hneeds.2 (hkind event hmem)
  refine ⟨?_, ?_, ?_, hu.policy ▸ h.rescans⟩
  · intro watch hwatch
    rcases hu.live watch hwatch with hwatch | hwatch
    · exact hu.accounts _ (h.live watch hwatch)
    · exact hwatch
  · intro event hmem hneeds
    rw [hqueue] at hmem
    rcases List.mem_append.mp hmem with hmem | hmem
    · exact hu.accounts _ (h.queue event hmem hneeds)
    · exact absurd hneeds (hlast event hmem)
  · rw [hqueue]
    refine List.pairwise_append.mpr ⟨h.last, ?_, fun _ _ b hb _ hneeds =>
      absurd hneeds (hlast b hb)⟩
    exact List.pairwise_of_forall_mem_list fun _ _ b hb _ hneeds => absurd hneeds (hlast b hb)

theorem of_cleared (hlive : t.source.live = []) (hqueue : t.source.queue = [])
    (hrescans : t.policy.overflow = .rescan) : t.Accountable where
  live := by simp [hlive]
  queue := by simp [hqueue]
  last := by simp [hqueue]
  rescans := hrescans

theorem push (h : t.Accountable)
    (hlive : event.kind = .overflow ∨ t.source.isLive event.watch = true)
    (hlast : ∀ other ∈ t.source.queue, other.kind = .ignored → other.watch ≠ event.watch) :
    Accountable { t with source := t.source.push event } where
  live := h.live
  queue other hmem hneeds := by
    rcases List.mem_append.mp hmem with hmem | hmem
    · exact h.queue other hmem hneeds
    · obtain rfl := List.mem_singleton.mp hmem
      obtain ⟨directory, hwatch⟩ := Source.isLive_iff.mp (hlive.resolve_left hneeds.1)
      exact h.live _ hwatch
  last := by
    refine List.pairwise_append.mpr ⟨h.last, List.pairwise_singleton _ _,
      fun a ha b hb hkind _ => ?_⟩
    obtain rfl := List.mem_singleton.mp hb
    exact (hlast a ha hkind).symm
  rescans := h.rescans

/-- What is known of an event that was just taken: if it needs its watch, that is accounted for; if
it announces the end of its watch, nothing else speaks of the watch any more. -/
theorem take (h : t.Accountable) (hnext : t.source.next? = some (event, source)) :
    Accountable { t with source } ∧
      (event.NeedsWatch → Accounts { t with source } event.watch) ∧
      (event.kind = .ignored → (∀ watch ∈ source.live, watch.1 ≠ event.watch) ∧
        ∀ other ∈ source.queue, other.NeedsWatch → other.watch ≠ event.watch) := by
  obtain ⟨rest, hqueue, hrest, hlive, -, -⟩ := Source.next?_eq_some hnext
  have hlast := h.last
  rw [hqueue, List.pairwise_cons] at hlast
  refine ⟨⟨fun watch hwatch => ?_, fun other hmem hneeds => ?_, hrest ▸ hlast.2, h.rescans⟩,
    fun hneeds => h.queue event (by simp [hqueue]) hneeds, fun hkind => ⟨fun watch hwatch => ?_,
      fun other hmem hneeds => hlast.1 other (hrest ▸ hmem) hkind hneeds⟩⟩
  · simp only [hlive] at hwatch
    split at hwatch
    · exact h.live watch (Source.mem_live_forget.mp hwatch).1
    · exact h.live watch hwatch
  · rw [hrest] at hmem
    exact h.queue other (by simp [hqueue, hmem]) hneeds
  · rw [hlive, if_pos hkind] at hwatch
    exact (Source.mem_live_forget.mp hwatch).2

theorem ended {id : WatchId} (h : t.Accountable) (hlive : ∀ watch ∈ t.source.live, watch.1 ≠ id)
    (hqueue : ∀ event ∈ t.source.queue, event.NeedsWatch → event.watch ≠ id) :
    (t.ended id).Accountable where
  live watch hwatch := by
    rw [source_ended] at hwatch
    exact accounts_ended (hlive watch hwatch) (h.live watch hwatch)
  queue event hmem hneeds := by
    rw [source_ended] at hmem
    exact accounts_ended (hqueue event hmem hneeds) (h.queue event hmem hneeds)
  last := by simpa using h.last
  rescans := by simpa using h.rescans

end Accountable

section Handling

/-- What a fault leaves behind: the account, or a table without room. -/
def Blameless (fault : Fault) (u : Tracker) : Prop :=
  (∃ error, fault = .source error) ∧ u.Accountable ∨ ∃ capacity, fault = .noRoom capacity

theorem Blameless.not_diverged {fault : Fault} (h : Blameless fault u) (why : Distrust) :
    fault ≠ .diverged why := by
  rcases h with ⟨⟨error, rfl⟩, -⟩ | ⟨capacity, rfl⟩ <;> simp

/-- An event that counts and needs its watch, which is accounted for, finds the slot of the
watch. -/
theorem slotOf?_isSome_of_not_stale (haccounts : t.Accounts event.watch) (hneeds : event.NeedsWatch)
    (hstale : t.isStale event = false) : (t.table.slotOf? event.watch).isSome = true := by
  apply haccounts.resolve_right
  intro hdraining
  have : t.isStale event = true := by
    simp [isStale, isDraining, hneeds.1, hneeds.2, hdraining]
  exact Bool.false_ne_true (hstale.symm.trans this)

theorem Blameless.of_stalled {fault : Fault} {tree : FileTree} {fits : Path → Prop}
    (h : t.Accountable) (hu : Stalled tree fits t fault u) : Blameless fault u := by
  obtain ⟨v, hv, ⟨⟨error, -, hfault⟩, rfl⟩ | ⟨hfault, -⟩⟩ := hu
  · exact .inl ⟨⟨error, hfault⟩, h.of_keeps (.of_gathered hv)⟩
  · exact .inr hfault

theorem ends_cover_accountable (h : t.Accountable) :
    cover.Ends moment t (fun _ u => u.Accountable) Blameless :=
  (gathering_cover t fun _ _ _ => suits_true).mono (fun _ _ hu => h.of_keeps (.of_gathered hu))
    fun _ _ => .of_stalled h

theorem ends_rebuild_accountable (h : t.Accountable) :
    rebuild.Ends moment t (fun _ u => u.Accountable) Blameless := by
  rw [ends_rebuild]
  split
  · exact .inl ⟨⟨_, rfl⟩, h⟩
  · exact ends_cover_accountable (.of_cleared rfl rfl h.rescans)

end Handling

section Pump

/-- Handling keeps the account, and an event other than an overflow starts no rebuild. -/
theorem ends_handle_accountable (h : t.Accountable)
    (hneeds : event.NeedsWatch → t.Accounts event.watch)
    (hended : event.kind = .ignored → (∀ watch ∈ t.source.live, watch.1 ≠ event.watch) ∧
      ∀ other ∈ t.source.queue, other.NeedsWatch → other.watch ≠ event.watch) :
    (handle event).Ends moment t
      (fun _ u => u.Accountable ∧
        (event.kind ≠ .overflow → u.counts.rebuilds = t.counts.rebuilds))
      fun fault u => Blameless fault u ∧
        (event.kind ≠ .overflow → u.counts.rebuilds = t.counts.rebuilds) := by
  have hreceived := Keeps.received t event
  have hu := h.of_keeps hreceived
  have hkept {v : Tracker} (hv : Keeps (t.received event) v) : v.Accountable ∧
      (event.kind ≠ .overflow → v.counts.rebuilds = t.counts.rebuilds) :=
    ⟨hu.of_keeps hv, fun _ => hv.rebuilds.trans hreceived.rebuilds⟩
  apply ends_handle_of
  · exact fun _ v hv => hkept (.of_shed hv)
  · exact fun _ v w hv hw => hkept ((Keeps.of_shed hv).trans (.of_gathered hw))
  · intro _ fault v w hv hw
    obtain ⟨hv, hrebuilds⟩ := hkept (.of_shed hv)
    exact ⟨.of_stalled hv hw, fun hkind => (rebuilds_of_stalled hw).trans (hrebuilds hkind)⟩
  · exact fun _ _ _ _ _ => suits_true
  · intro hneeds' hstale hslot
    have hsome := slotOf?_isSome_of_not_stale (hreceived.accounts _ (hneeds hneeds')) hneeds' hstale
    simp [hslot] at hsome
  · intro hoverflow
    apply ends_onOverflow.mpr
    rw [hu.rescans]
    have hoverran : (t.received event).overran.Accountable :=
      hu.of_keeps (.of_same rfl rfl rfl rfl rfl)
    exact (ends_rebuild_accountable hoverran).mono (fun _ v hv =>
      ⟨hv, fun hne => absurd hoverflow hne⟩)
      fun fault v hv => ⟨hv, fun hne => absurd hoverflow hne⟩
  · intro hkind
    obtain ⟨hlive, hqueue⟩ := hended hkind
    have hsource := (shed_received t event).source
    refine ⟨hu.ended (fun watch hwatch => hlive watch (hsource.1.subset hwatch)) ?_,
      fun _ => (rebuilds_ended _ _).trans hreceived.rebuilds⟩
    intro other hmem hother
    obtain ⟨more, hmore, hkinds⟩ := hreceived.queue
    rw [hmore] at hmem
    rcases List.mem_append.mp hmem with hmem | hmem
    · exact hqueue other hmem hother
    · exact absurd (hkinds other hmem) hother.2

theorem ends_pump_accountable (h : t.Accountable) :
    pump.Ends moment t (fun _ u => u.Accountable) Blameless := by
  rw [ends_pump]
  split
  · exact h
  · next event source hnext =>
    obtain ⟨ht, hneeds, hended⟩ := h.take hnext
    exact (ends_handle_accountable ht hneeds hended).mono (fun _ _ => And.left) fun _ _ => And.left

theorem ends_check_accountable (h : t.Accountable) :
    check.Ends moment t (fun _ u => u.Accountable)
      fun fault u => u.Accountable ∨ ∃ capacity, fault = .noRoom capacity := by
  rw [ends_check]
  split
  · rw [ends_resolveDistrust]
    split
    · exact .inl h
    · exact (ends_rebuild_accountable h).mono (fun _ _ h => h) fun _ _ => Or.imp_left And.right
  · exact h

end Pump

section Runs

/-- An action found room for every entry that it had to make. -/
def FoundRoom {α : Type} (reply : Reply Tracker α) : Prop :=
  ∀ capacity, reply.result ≠ .error (.noRoom capacity)

theorem accountable_of_ends {α : Type} {x : Action Tracker α}
    (h : x.Ends moment t (fun _ u => u.Accountable)
      fun fault u => u.Accountable ∨ ∃ capacity, fault = .noRoom capacity)
    (hroom : FoundRoom (x moment t)) : (x moment t).state.Accountable := by
  cases hresult : (x moment t).result with
  | ok a => exact h.of_ok hresult
  | error fault =>
    refine (h.of_error hresult).resolve_right fun ⟨capacity, hcapacity⟩ => ?_
    exact hroom capacity (hcapacity ▸ hresult)

/-- The trackers that can come about from a start on a fresh source, while the file tree changes at
will between the steps and the source is fed as a kernel feeds it. -/
inductive Supervised : Tracker → Prop
  | start {source : Source} {policy : Policy} (roots : Roots) (moment : Moment)
      (hlive : source.live = []) (hqueue : source.queue = []) (hrescans : policy.overflow = .rescan)
      (hroom : FoundRoom (start moment (ofRoots source roots policy))) :
      Supervised (start moment (ofRoots source roots policy)).state
  | push {t : Tracker} (event : Event) (h : Supervised t)
      (hlive : event.kind = .overflow ∨ t.source.isLive event.watch = true)
      (hlast : ∀ other ∈ t.source.queue, other.kind = .ignored → other.watch ≠ event.watch) :
      Supervised { t with source := t.source.push event }
  | pump {t : Tracker} (moment : Moment) (h : Supervised t) (hroom : FoundRoom (pump moment t)) :
      Supervised (pump moment t).state
  | expire {t : Tracker} (moment : Moment) (h : Supervised t) : Supervised (expire moment t).state
  | check {t : Tracker} (moment : Moment) (h : Supervised t) (hroom : FoundRoom (check moment t)) :
      Supervised (check moment t).state
  | rebuild {t : Tracker} (moment : Moment) (h : Supervised t)
      (hroom : FoundRoom (rebuild moment t)) : Supervised (rebuild moment t).state

theorem Supervised.accountable (h : Supervised t) : t.Accountable := by
  induction h with
  | @start source policy roots moment hlive hqueue hrescans hroom =>
    have hfresh : (ofRoots source roots policy).Accountable := .of_cleared hlive hqueue hrescans
    refine accountable_of_ends ?_ hroom
    exact ends_start.mpr
      ((ends_cover_accountable hfresh).mono (fun _ _ h => h) fun _ _ => Or.imp_left And.right)
  | push event _ hlive hlast ih => exact ih.push hlive hlast
  | pump moment _ hroom ih =>
    refine accountable_of_ends (ends_pump_accountable ih |>.mono (fun _ _ h => h) ?_) hroom
    exact fun _ _ => Or.imp_left And.right
  | @expire t moment _ ih =>
    have hends : Tracker.expire.Ends moment t (fun _ u => u.Accountable) fun _ _ => False :=
      ends_expire.mpr (ih.of_keeps (.of_shed (shed_expired t)))
    exact accountable_of_ends (hends.mono (fun _ _ h => h) fun _ _ => False.elim)
      fun capacity hresult => hends.of_error hresult
  | check moment _ hroom ih => exact accountable_of_ends (ends_check_accountable ih) hroom
  | rebuild moment _ hroom ih =>
    refine accountable_of_ends (ends_rebuild_accountable ih |>.mono (fun _ _ h => h) ?_) hroom
    exact fun _ _ => Or.imp_left And.right

/-- No event of a supervised tracker raises a false alarm: pumping never ends in distrust, an event
other than an overflow starts no rebuild, and a watch that an event needs is in the table when it is
looked for. -/
theorem pump_raises_no_alarm (h : Supervised t) (moment : Moment) :
    (∀ why, (pump moment t).result ≠ .error (.diverged why)) ∧
      ∀ event source, t.source.next? = some (event, source) →
        (event.kind ≠ .overflow →
          (pump moment t).state.counts.rebuilds = t.counts.rebuilds) ∧
        (event.kind = .create ∨ event.kind = .movedFrom ∨ event.kind = .movedTo →
          (received { t with source } event).isStale event = false →
          ((received { t with source } event).table.slotOf? event.watch).isSome = true) := by
  have ht := h.accountable
  refine ⟨?_, ?_⟩
  · intro why hresult
    exact ((ends_pump_accountable ht).of_error hresult).not_diverged why rfl
  · intro event source hnext
    obtain ⟨ht', hneeds, hended⟩ := ht.take hnext
    refine ⟨?_, ?_⟩
    · intro hne
      have hhandle := @ends_handle_accountable moment _ _ ht' hneeds hended
      have hpump : Tracker.pump.Ends moment t
          (fun _ u => u.counts.rebuilds = t.counts.rebuilds)
          fun _ u => u.counts.rebuilds = t.counts.rebuilds := by
        rw [ends_pump, hnext]
        exact hhandle.mono (fun _ _ h => h.2 hne) fun _ _ h => h.2 hne
      cases hresult : (Tracker.pump moment t).result with
      | ok flow => exact hpump.of_ok hresult
      | error fault => exact hpump.of_error hresult
    · intro hkind hstale
      have hneeds' : event.NeedsWatch := by
        rcases hkind with hkind | hkind | hkind <;> simp [Event.NeedsWatch, hkind]
      exact slotOf?_isSome_of_not_stale ((Keeps.received _ event).accounts _ (hneeds hneeds'))
        hneeds' hstale

/-- A directory made below a root right after the start. -/
theorem pump_raises_no_alarm_of_creation :
    let tree : FileTree := ⟨[([[114]], .directory 1)], 2⟩
    let roots : Roots := ⟨[some ⟨FileTree.pathOf [[114]], 1⟩], 0⟩
    let t := (start ⟨tree, 0⟩ (ofRoots .empty roots ⟨true, .rescan⟩)).state
    let made : Event := ⟨⟨1⟩, .create, true, none, some [97]⟩
    Supervised { t with source := t.source.push made } ∧
      ∀ why, (pump ⟨tree, 0⟩ { t with source := t.source.push made }).result ≠
        .error (.diverged why) := by
  intro tree roots t made
  have hstart : (start ⟨tree, 0⟩ (ofRoots .empty roots ⟨true, .rescan⟩)).result.toBool = true := by
    decide +kernel
  have hlive : t.source.isLive ⟨1⟩ = true := by decide +kernel
  have hqueue : t.source.queue = [] := by decide +kernel
  have ht : Supervised t := by
    refine .start roots ⟨tree, 0⟩ rfl rfl rfl fun capacity hfault => ?_
    rw [hfault] at hstart
    exact Bool.false_ne_true hstart
  have hpushed : Supervised { t with source := t.source.push made } :=
    ht.push made (.inr hlive) (by simp [hqueue])
  exact ⟨hpushed, (pump_raises_no_alarm hpushed ⟨tree, 0⟩).1⟩

end Runs

end Tracker

end TreeWatch
