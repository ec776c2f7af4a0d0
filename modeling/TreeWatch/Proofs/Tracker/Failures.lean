import TreeWatch.Proofs.Tracker.Runs

/-!
# Failures leave the state alone

Distrust that ends the work, and a rebuild that cannot begin, are found before anything else is done
with an event: the wait of departures may have ended by then, and the event is counted, but that is
all. So the table that is written to the log at the end is the table as it was when it came to be
distrusted.
-/

namespace TreeWatch

/-- Why work ends in spite of room and watches: distrust, or a source that does not start over. -/
def Fault.IsFinal (fault : Fault) : Prop :=
  (∃ why, fault = .diverged why) ∨ fault = .source .resetRefused

namespace Tracker

open TreeWatch.Action

variable {moment : Moment} {tree : FileTree} {fits : Path → Prop} {t u v : Tracker} {path : Path}
  {slot : Nat} {event : Event} {fault : Fault}

/-- A tracker in which departures that the event does not complete have ended their wait. -/
def settledFor (moment : Moment) (t : Tracker) (event : Event) : Tracker :=
  if t.completes event then t else (expire moment t).state

def tallied (t : Tracker) (event : Event) : Tracker :=
  { t with counts := { t.counts with
      events := t.counts.events + 1
      overflows := t.counts.overflows + if event.kind = .overflow then 1 else 0 } }

section Counting

theorem withoutRoot_counted : t.counted.withoutRoot path = (t.withoutRoot path).counted := by
  unfold withoutRoot counted
  split <;> rfl

theorem relinquished_counted {id : WatchId} :
    t.counted.relinquished id = (t.relinquished id).counted := by
  unfold relinquished released drained counted isDraining
  split
  · rfl
  · cases t.source.remove id <;> simp only <;> split <;> rfl

theorem givenUp_counted : t.counted.givenUp slot = (t.givenUp slot).counted := by
  cases hget : t.table.get? slot with
  | none => rw [givenUp_of_free hget, givenUp_of_free (t := t.counted) hget]
  | some entry =>
    rw [givenUp_of_get? hget, givenUp_of_get? (t := t.counted) hget, relinquished_counted,
      ← withoutRoot_counted]
    rfl

theorem givenUpAll_counted (slots : List Nat) :
    t.counted.givenUpAll slots = (t.givenUpAll slots).counted := by
  induction slots generalizing t with
  | nil => rfl
  | cons slot rest ih =>
    simp only [givenUpAll, List.foldl_cons] at ih ⊢
    rw [givenUp_counted, ih]

theorem withoutMoved_counted : t.counted.withoutMoved path = (t.withoutMoved path).counted := by
  unfold withoutMoved withoutSubtree
  rw [show t.counted.table = t.table from rfl, givenUpAll_counted]
  rfl

/-- It makes no difference whether an event is counted before or after the wait of departures
ends. -/
theorem expired_counted : t.counted.expired = t.expired.counted := by
  have hall : ∀ (waiting : List Departure) (t : Tracker),
      waiting.foldl (fun t departure => t.withoutMoved departure.path) t.counted =
        (waiting.foldl (fun t departure => t.withoutMoved departure.path) t).counted := by
    intro waiting
    induction waiting with
    | nil => exact fun t => rfl
    | cons departure rest ih =>
      intro t
      rw [List.foldl_cons, List.foldl_cons, withoutMoved_counted, ih]
  exact hall _ { t with departures := .empty }

theorem state_expire (moment : Moment) (t : Tracker) : (expire moment t).state = t.expired := by
  have hends : expire.Ends moment t (fun _ u => u = t.expired) fun _ u => u = t.expired :=
    ends_expire.mpr rfl
  exact hends.state

theorem received_eq (moment : Moment) (t : Tracker) (event : Event) :
    t.received event = (t.settledFor moment event).counted := by
  have hempty (h : t.departures.isEmpty = true) : t.expired = t := by
    have hwaiting : t.departures = .empty := by
      rcases t with ⟨_, _, _, ⟨waiting⟩, _, _, _⟩
      exact congrArg Departures.mk (List.isEmpty_iff.mp h)
    rcases t with ⟨_, _, _, departures, _, _, _⟩
    obtain rfl : departures = .empty := hwaiting
    rfl
  rw [settledFor, state_expire]
  change (if !t.departures.isEmpty && !t.completes event then t.counted.expired else t.counted) = _
  rw [expired_counted]
  cases hwaits : t.departures.isEmpty <;> cases hcompletes : t.completes event <;> simp [hempty,
    hwaits]

theorem tallied_of_not_overflow (h : event.kind ≠ .overflow) : t.tallied event = t.counted := by
  simp [tallied, counted, h]

theorem tallied_of_overflow (h : event.kind = .overflow) : t.tallied event = t.counted.overran := by
  simp [tallied, counted, overran, h]

end Counting

section Faults

/-- Nothing that comes ends in distrust or in a refusal to start over. -/
theorem not_isFinal_of_stalled (h : Stalled tree fits t fault u) : ¬ fault.IsFinal := by
  obtain ⟨v, -, ⟨⟨error, herror, rfl⟩, -⟩ | ⟨⟨capacity, rfl⟩, -⟩⟩ := h
  · rintro (⟨why, hwhy⟩ | hrefused)
    · cases hwhy
    · exact herror (Fault.source.inj hrefused)
  · rintro (⟨why, hwhy⟩ | hrefused)
    · cases hwhy
    · cases hrefused

theorem ends_rebuild_intact :
    rebuild.Ends moment t (fun _ _ => True) fun fault u => fault.IsFinal → u = t := by
  rw [ends_rebuild]
  split
  · exact fun _ => rfl
  · have hcover : Gathering moment (fun _ => True) t.wiped cover :=
      gathering_cover t.wiped fun _ _ _ => suits_true
    exact hcover.mono (fun _ _ _ => trivial)
      fun fault u hu hfinal => absurd hfinal (not_isFinal_of_stalled hu)

theorem ends_resolveDistrust_intact {why : Distrust} :
    (resolveDistrust why).Ends moment t (fun _ _ => True) fun fault u => fault.IsFinal → u = t := by
  rw [ends_resolveDistrust]
  split
  · exact fun _ => rfl
  · exact ends_rebuild_intact

theorem ends_check_intact :
    check.Ends moment t (fun _ _ => True) fun fault u => fault.IsFinal → u = t := by
  rw [ends_check]
  split
  · exact ends_resolveDistrust_intact
  · trivial

theorem ends_handle_intact :
    (handle event).Ends moment t (fun _ _ => True) fun fault u =>
      fault.IsFinal → u = (t.settledFor moment event).tallied event := by
  have hreceived := received_eq moment t event
  refine ends_handle_of ?_ ?_ ?_ (fun _ _ _ _ _ => suits_true) ?_ ?_ ?_
  · exact fun _ _ _ => trivial
  · exact fun _ _ _ _ _ => trivial
  · exact fun _ fault u v _ hv hfinal => absurd hfinal (not_isFinal_of_stalled hv)
  · intro hneeds _ _
    rw [hreceived, ← tallied_of_not_overflow hneeds.1]
    exact ends_resolveDistrust_intact
  · intro hoverflow
    rw [hreceived, ends_onOverflow, ← tallied_of_overflow hoverflow]
    split
    · exact fun _ => rfl
    · exact ends_rebuild_intact
  · exact fun _ => trivial

/-- In every state, an event that ends in distrust, or in a rebuild that cannot begin, changes
nothing but what ending the wait of departures does and the counts of events and overflows; an audit
or a rebuild that ends so changes nothing at all. -/
theorem failures_leave_the_state (t : Tracker) (moment : Moment) :
    (∀ event fault, (handle event moment t).result = .error fault → fault.IsFinal →
      (handle event moment t).state = (t.settledFor moment event).tallied event) ∧
    (∀ fault, (check moment t).result = .error fault → fault.IsFinal →
      (check moment t).state = t) ∧
    ∀ fault, (rebuild moment t).result = .error fault → fault.IsFinal →
      (rebuild moment t).state = t :=
  ⟨fun _ _ hresult => ends_handle_intact.of_error hresult,
    fun _ hresult => ends_check_intact.of_error hresult,
    fun _ hresult => ends_rebuild_intact.of_error hresult⟩

/-- A directory has left and its second half is still awaited when an event comes on a watch that
the table does not have; by now a file stands in its place, and the source would not start over. -/
theorem failures_leave_the_state_of_departure :
    let full : FileTree := ⟨[([[114]], .directory 1), ([[114], [97]], .directory 2)], 3⟩
    let now : Moment := ⟨⟨[([[114]], .directory 1), ([[114], [97]], .file [] 0)], 3⟩, 0⟩
    let t := outcome (ofRoots .empty ⟨[some ⟨FileTree.pathOf [[114]], 1⟩], 0⟩ ⟨true, .rescan⟩)
      [(⟨full, 0⟩, .start), (now, .handle ⟨⟨1⟩, .movedFrom, true, some 7, some [97]⟩),
        (now, .regulate [] true)]
    let event : Event := ⟨⟨9⟩, .create, true, none, some [98]⟩
    (handle event now t).state = (t.settledFor now event).tallied event ∧
      (t.settledFor now event).table.entries.length + 1 = t.table.entries.length ∧
      (check now t).state = t ∧ (rebuild now t).state = t := by
  intro full now t event
  obtain ⟨hhandle, hcheck, hrebuild⟩ := failures_leave_the_state t now
  refine ⟨hhandle event (.diverged (.unknownWatch ⟨9⟩)) ?_ (.inl ⟨_, rfl⟩), ?_,
    hcheck (.diverged (.notDirectories [⟨⟨2⟩, FileTree.pathOf [[114], [97]]⟩])) ?_ (.inl ⟨_, rfl⟩),
    hrebuild (.source .resetRefused) ?_ (.inr rfl)⟩
  all_goals decide +kernel

end Faults

end Tracker

end TreeWatch
