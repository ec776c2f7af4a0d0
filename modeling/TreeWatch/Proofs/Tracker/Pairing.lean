import TreeWatch.Proofs.Tracker.Failures
import TreeWatch.Proofs.Tracker.Laws

/-!
# The halves of renames

A directory that leaves a watched directory is found again where the rename ends, or it is given up,
or it still waits: one of these, and only once. What an event makes of the halves is said here by a
case for each thing that can happen, and the count of a whole run comes from that.

At most one half ever waits. Everything that comes after it ends the wait first, but for what claims
it, and that is never a first half.
-/

namespace TreeWatch

namespace Tracker

open TreeWatch.Action

variable {moment : Moment} {t u v : Tracker} {event : Event} {path : Path} {first second : Nat}

section Halves

/-- Whether an event tells of a directory that left one which is watched and not on its way out. -/
def departs (t : Tracker) (event : Event) : Bool :=
  event.kind == .movedFrom && event.isDirectory && event.name.isSome &&
    (t.table.slotOf? event.watch).isSome && !t.isDraining event.watch

/-- The first half that an event leaves to wait, if it is one that a cookie ties to a second. -/
def parked? (t : Tracker) (now : Nat) (event : Event) : Option Departure :=
  if t.departs event then do
    let cookie ← event.cookie
    let name ← event.name
    let parent ← t.table.pathOf? event.watch
    pure ⟨cookie, event.watch, parent.child name, now⟩
  else none

/-- How many directories left so far: those found again, those given up, and those that may come
yet. -/
def departed (t : Tracker) : Nat := t.counts.renamed + t.counts.movedOut + t.departures.size

/-- So many directories were given up as gone; what waits is as it was, and nothing started over. -/
structure MovesOut (count : Nat) (t u : Tracker) : Prop where
  departures : u.departures = t.departures
  renamed : u.counts.renamed = t.counts.renamed
  movedOut : u.counts.movedOut = t.counts.movedOut + count
  rebuilds : u.counts.rebuilds = t.counts.rebuilds

namespace MovesOut

theorem refl (t : Tracker) : MovesOut 0 t t := ⟨rfl, rfl, rfl, rfl⟩

theorem trans (h : MovesOut first t u) (h' : MovesOut second u v) :
    MovesOut (first + second) t v where
  departures := h'.departures.trans h.departures
  renamed := h'.renamed.trans h.renamed
  movedOut := by rw [h'.movedOut, h.movedOut, Nat.add_assoc]
  rebuilds := h'.rebuilds.trans h.rebuilds

theorem withoutRoot (t : Tracker) (path : Path) : MovesOut 0 t (t.withoutRoot path) := by
  unfold Tracker.withoutRoot
  split <;> exact ⟨rfl, rfl, rfl, rfl⟩

end MovesOut

theorem coverLaw_movesOut : CoverLaw fun t _ u => MovesOut 0 t u where
  rest := .refl
  next h h' := h.trans h'
  said t _ _ := .refl t
  asked _ := ⟨rfl, rfl, rfl, rfl⟩
  released _ := ⟨rfl, rfl, rfl, rfl⟩
  table _ _ := ⟨rfl, rfl, rfl, rfl⟩
  draining _ _ := ⟨rfl, rfl, rfl, rfl⟩
  retired path moment t := by
    simp only [state_retireRoot]
    exact .withoutRoot t path

/-- Nothing happened to the halves of renames, unless there was a new start, after which none
waits. -/
def SparesHalves (t u : Tracker) : Prop :=
  MovesOut 0 t u ∨ t.counts.rebuilds < u.counts.rebuilds ∧ u.departures = .empty

theorem eventLaw_sparesHalves : EventLaw fun t _ u => SparesHalves t u where
  rest t := .inl (.refl t)
  next := by
    rintro t u v _ _ (h | ⟨h, hempty⟩) (h' | ⟨h', hempty'⟩)
    · exact .inl (h.trans h')
    · exact .inr ⟨h.rebuilds ▸ h', hempty'⟩
    · exact .inr ⟨h'.rebuilds ▸ h, h'.departures.trans hempty⟩
    · exact .inr ⟨Nat.lt_trans h h', hempty'⟩
  said t _ _ := .inl (.refl t)
  asked _ := .inl ⟨rfl, rfl, rfl, rfl⟩
  released _ := .inl ⟨rfl, rfl, rfl, rfl⟩
  table _ _ := .inl ⟨rfl, rfl, rfl, rfl⟩
  draining _ _ := .inl ⟨rfl, rfl, rfl, rfl⟩
  retired path moment t := .inl (coverLaw_movesOut.retired path moment t)
  cleared _ := .inr ⟨Nat.lt_succ_self _, rfl⟩
  noted _ _ _ _ _ := .inl ⟨rfl, rfl, rfl, rfl⟩

theorem movesOut_withoutSubtree (t : Tracker) (path : Path) :
    MovesOut 0 t (t.withoutSubtree path) :=
  -- at no matter which moment: giving up looks at no tree and no clock
  ends_giveUpSubtree.mp ((coverLaw_movesOut.giveUpSubtree path).ends ⟨.empty, 0⟩ t)

theorem movesOut_withoutMoved (t : Tracker) (path : Path) : MovesOut 1 t (t.withoutMoved path) := by
  have h := movesOut_withoutSubtree t path
  exact ⟨h.departures, h.renamed, congrArg (· + 1) h.movedOut, h.rebuilds⟩

theorem movesOut_expired (t : Tracker) :
    MovesOut t.departures.size { t with departures := .empty } t.expired := by
  have hall : ∀ (waiting : List Departure) (t : Tracker), MovesOut waiting.length t
      (waiting.foldl (fun t departure => t.withoutMoved departure.path) t) := by
    intro waiting
    induction waiting with
    | nil => exact .refl
    | cons departure rest ih =>
      intro t
      rw [List.length_cons, Nat.add_comm]
      exact (movesOut_withoutMoved t departure.path).trans (ih _)
  exact hall _ _

end Halves

section Beginning

theorem completes_eq_false_of_movedFrom (h : event.kind = .movedFrom) :
    t.completes event = false := by
  simp [completes, h]

theorem departures_received (h : t.completes event = false) :
    (t.received event).departures = .empty := by
  rw [received_eq ⟨.empty, 0⟩, settledFor, h, state_expire]
  exact (movesOut_expired t).departures

end Beginning

section Events

/-- What an event that counts makes of the halves of renames. -/
inductive Pairs (now : Nat) (event : Event) (t : Tracker) : Tracker → Prop
  /-- It does not tell of a directory that left. -/
  | passes {u : Tracker} (hdeparts : t.departs event = false) (h : SparesHalves t u) :
      Pairs now event t u
  /-- A directory left, and no second half will come. -/
  | leaves {u : Tracker} (hdeparts : t.departs event = true) (hcookie : event.cookie = none)
      (h : MovesOut 1 t u) : Pairs now event t u
  /-- A directory left, and the first half of its rename is the only one that waits. -/
  | parks {departure : Departure} (hparked : t.parked? now event = some departure)
      (hempty : t.departures = .empty) :
      Pairs now event t { t with departures := ⟨[departure]⟩ }
  /-- A directory arrived that a first half waits for. -/
  | claims {cookie : Nat} {departure : Departure} {u : Tracker} (hkind : event.kind = .movedTo)
      (hget : t.departures.get? cookie = some departure)
      (h : MovesOut 0
        { t with
          departures := t.departures.erase cookie
          counts := { t.counts with renamed := t.counts.renamed + 1 } } u) : Pairs now event t u

theorem parked?_of_not_departs {now : Nat} (h : t.departs event = false) :
    t.parked? now event = none := by
  simp [parked?, h]

theorem departs_of_parked? {now : Nat} {departure : Departure}
    (h : t.parked? now event = some departure) : t.departs event = true := by
  by_contra hnot
  rw [parked?_of_not_departs (Bool.eq_false_iff.mpr hnot)] at h
  cases h

theorem departs_of_kind_ne (h : event.kind ≠ .movedFrom) : t.departs event = false := by
  simp [departs, h]

/-- A first half comes when none waits, so none gives way to it. -/
theorem ends_onMovedFrom_pairs (hkind : event.kind = .movedFrom) (hempty : t.departures = .empty)
    (hdraining : t.isDraining event.watch = false) :
    (onMovedFrom event).Ends moment t (fun _ u => Pairs moment.now event t u)
      fun _ u => Pairs moment.now event t u := by
  unfold onMovedFrom
  split
  · next hdirectory =>
    rw [ends_bind, ends_subject]
    cases hname : event.name with
    | none => exact .passes (by simp [departs, hname]) (.inl (.refl t))
    | some name =>
      cases hslot : t.table.slotOf? event.watch with
      | none =>
        have hpasses {u : Tracker} : SparesHalves t u → Pairs moment.now event t u :=
          .passes (by simp [departs, hslot])
        exact (eventLaw_sparesHalves.resolveDistrust _).ends_of hpasses
      | some slot =>
        have hdeparts : t.departs event = true := by
          simp [departs, hkind, hdirectory, hname, hslot, hdraining]
        obtain ⟨entry, hget, -⟩ := WatchTable.slotOf?_eq_some hslot
        simp only [hget, Option.map_some]
        cases hcookie : event.cookie with
        | none => exact ends_giveUpMoved.mpr (.leaves hdeparts hcookie (movesOut_withoutMoved t _))
        | some cookie =>
          simp only [ends_bind, ends_say, ends_now, ends_state, ends_change, hempty]
          have hparked : t.parked? moment.now event =
              some ⟨cookie, event.watch, entry.path.child name, moment.now⟩ := by
            simp [parked?, hdeparts, hcookie, hname, WatchTable.pathOf?, hslot, hget]
          exact .parks hparked hempty
  · next hdirectory => exact .passes (by simp [departs, hdirectory]) (.inl (.refl t))

theorem ends_rename_movesOut (t : Tracker) (source target : Path) :
    (rename source target).Ends moment t
      (fun _ u => MovesOut 0 { t with counts := { t.counts with renamed := t.counts.renamed + 1 } }
        u)
      fun _ u => MovesOut 0 { t with counts := { t.counts with renamed := t.counts.renamed + 1 } }
        u := by
  have hR := coverLaw_movesOut
  rw [rename, ends_bind, ends_change]
  -- the count comes first, so a refusal of the new path does not undo it
  refine Obeys.ends (R := MovesOut 0) ?_ moment _
  refine hR.look fun before => hR.bind (hR.requestWatch target) fun watch => ?_
  split
  · refine hR.bind hR.debug fun _ => ?_
    split
    · exact hR.bind (hR.moveEntries _ _) fun _ => hR.retired _
    · exact hR.pure ()
  · split
    · exact hR.bind (hR.moveEntries _ _) fun _ => hR.bind hR.debug fun _ => hR.retired _
    · exact hR.bind hR.debug fun _ => hR.bind (hR.coverSubtree _) fun _ => hR.pure ()

theorem erase_of_get?_eq_none {departures : Departures} {cookie : Nat}
    (h : departures.get? cookie = none) : departures.erase cookie = departures := by
  unfold Departures.erase
  rw [List.filter_eq_self.mpr]
  intro departure hdeparture
  have hne := List.find?_eq_none.mp h departure hdeparture
  simpa using hne

theorem erase_of_get?_eq_some {departures : Departures} {cookie : Nat} {departure : Departure}
    (hsize : departures.size ≤ 1) (h : departures.get? cookie = some departure) :
    departures.size = 1 ∧ departures.erase cookie = .empty := by
  obtain ⟨waiting⟩ := departures
  match waiting with
  | [] => cases h
  | [only] =>
    have hcookie : only.cookie = cookie := by
      have hfound := List.find?_some h
      have hmem := List.mem_of_find?_eq_some h
      obtain rfl := List.mem_singleton.mp hmem
      simpa using hfound
    simp [Departures.size, Departures.erase, Departures.empty, hcookie]
  | _ :: _ :: _ => simp [Departures.size] at hsize

theorem ends_onMovedTo_pairs (hkind : event.kind = .movedTo) :
    (onMovedTo event).Ends moment t (fun _ u => Pairs moment.now event t u)
      fun _ u => Pairs moment.now event t u := by
  have hpasses {u : Tracker} : SparesHalves t u → Pairs moment.now event t u :=
    .passes (departs_of_kind_ne (by simp [hkind]))
  have hwelcome (path : Path) {lines : List Log.Line} (hlines : exhaustedLine ∉ lines) : (do
      Action.say lines
      welcome path : Action Tracker Unit).Ends moment t (fun _ u => Pairs moment.now event t u)
        fun _ u => Pairs moment.now event t u :=
    (eventLaw_sparesHalves.bind (eventLaw_sparesHalves.say hlines) fun _ =>
      eventLaw_sparesHalves.welcome path).ends_of hpasses
  unfold onMovedTo
  split
  · rw [ends_bind]
    refine ends_subject_of (fun _ => hpasses (.inl (.refl t))) ?_
      fun _ => (eventLaw_sparesHalves.resolveDistrust _).ends_of hpasses
    intro entry _ _ name _
    rw [ends_bind, ends_claim]
    cases event.cookie with
    | none => exact hwelcome _ exhaustedLine_notMem_debug
    | some cookie =>
      simp only
      cases hclaimed : t.departures.get? cookie with
      | none =>
        rw [erase_of_get?_eq_none hclaimed]
        exact hwelcome _ exhaustedLine_notMem_debug
      | some departure =>
        exact (ends_rename_movesOut _ departure.path _).mono (fun _ _ => .claims hkind hclaimed)
          fun _ _ => .claims hkind hclaimed
  · exact hpasses (.inl (.refl t))

/-- Handling an event, too late or not, does one of the things that can happen to halves. -/
theorem ends_handle_pairs (moment : Moment) (t : Tracker) (event : Event) :
    (handle event).Ends moment t (fun _ u => Pairs moment.now event (t.received event) u)
      fun _ u => Pairs moment.now event (t.received event) u := by
  rw [ends_handle]
  split
  · next hstale =>
    have hdraining : (t.received event).isDraining event.watch = true := by
      rw [isStale, Bool.and_eq_true] at hstale
      exact hstale.2
    exact .passes (by simp [departs, hdraining]) (.inl ⟨rfl, rfl, rfl, rfl⟩)
  · next hstale =>
    by_cases hfrom : event.kind = .movedFrom
    · -- a first half claims nothing, so whatever waited has been settled by now
      have hdraining : (t.received event).isDraining event.watch = false := by
        simpa [isStale, hfrom] using hstale
      have hempty := departures_received (completes_eq_false_of_movedFrom (t := t) hfrom)
      simpa [applyEvent, hfrom] using ends_onMovedFrom_pairs hfrom hempty hdraining
    · by_cases hto : event.kind = .movedTo
      · simpa [applyEvent, hto] using ends_onMovedTo_pairs hto
      · have hpasses {u : Tracker} : SparesHalves (t.received event) u →
            Pairs moment.now event (t.received event) u := .passes (departs_of_kind_ne hfrom)
        exact (eventLaw_sparesHalves.applyEvent (fun hkind => absurd hkind hfrom)
          fun hkind => absurd hkind hto).ends_of hpasses

theorem Pairs.eq_of_parked? {now : Nat} {departure : Departure} (h : Pairs now event t u)
    (hparked : t.parked? now event = some departure) :
    u = { t with departures := ⟨[departure]⟩ } := by
  have hdeparts := departs_of_parked? hparked
  cases h with
  | passes hnot h => simp [hnot] at hdeparts
  | leaves _ hcookie h => simp [parked?, hdeparts, hcookie] at hparked
  | parks hparked' hempty =>
    rw [hparked] at hparked'
    cases hparked'
    rfl
  | claims hkind hget h => simp [departs, hkind] at hdeparts

/-- Where none waits, what an event leaves is all that waits after it. -/
theorem Pairs.waiting_eq {now : Nat} (h : Pairs now event t u) (hempty : t.departures = .empty) :
    u.departures.waiting = (t.parked? now event).toList := by
  cases h with
  | passes hnot h =>
    have hu : u.departures = .empty := h.elim (fun h => h.departures.trans hempty) (·.2)
    rw [hu, parked?_of_not_departs hnot]
    rfl
  | leaves _ hcookie h =>
    rw [h.departures, hempty]
    simp [Departures.empty, parked?, hcookie]
  | parks hparked hempty => simp [hparked]
  | claims hkind hget h =>
    rw [hempty] at hget
    cases hget

end Events

section Steps

/-- Between two states so many directories left, unless there was a new start; at most one half
waits. -/
structure Balanced (t : Tracker) (count : Nat) (u : Tracker) : Prop where
  size : u.departures.size ≤ 1
  rebuilds : t.counts.rebuilds ≤ u.counts.rebuilds
  departed : u.counts.rebuilds = t.counts.rebuilds → u.departed = t.departed + count

namespace Balanced

theorem trans (h : Balanced t first u) (h' : Balanced u second v) :
    Balanced t (first + second) v where
  size := h'.size
  rebuilds := Nat.le_trans h.rebuilds h'.rebuilds
  departed hsame := by
    have hle := h.rebuilds
    have hle' := h'.rebuilds
    rw [h'.departed (by omega), h.departed (by omega), Nat.add_assoc]

theorem of_spares (hsize : t.departures.size ≤ 1) (h : SparesHalves t u) : Balanced t 0 u := by
  obtain h | ⟨hlt, hempty⟩ := h
  · exact ⟨by rwa [h.departures], Nat.le_of_eq h.rebuilds.symm, fun _ => by
      simp only [Tracker.departed, h.renamed, h.movedOut, h.departures, Nat.add_zero]⟩
  · exact ⟨by simp [hempty, Departures.size, Departures.empty], Nat.le_of_lt hlt,
      fun hsame => by omega⟩

theorem expired (t : Tracker) : Balanced t 0 t.expired := by
  have h := movesOut_expired t
  exact ⟨by simp [h.departures, Departures.size, Departures.empty], Nat.le_of_eq h.rebuilds.symm,
      fun _ => by
    simp [Tracker.departed, h.renamed, h.movedOut, h.departures, Departures.size, Departures.empty,
      Nat.add_assoc]⟩

theorem received (hsize : t.departures.size ≤ 1) (event : Event) :
    Balanced t 0 (t.received event) := by
  rw [received_eq ⟨.empty, 0⟩, settledFor]
  split
  · exact ⟨hsize, Nat.le_refl _, fun _ => rfl⟩
  · have h := state_expire ⟨.empty, 0⟩ t ▸ expired t
    exact ⟨h.size, h.rebuilds, h.departed⟩

theorem of_pairs {now : Nat} (hsize : t.departures.size ≤ 1) (h : Pairs now event t u) :
    Balanced t (if t.departs event then 1 else 0) u := by
  cases h with
  | passes hdeparts h =>
    rw [hdeparts]
    exact of_spares hsize h
  | leaves hdeparts hcookie h =>
    rw [hdeparts]
    exact ⟨by rwa [h.departures], Nat.le_of_eq h.rebuilds.symm, fun _ => by
      simp only [Tracker.departed, h.renamed, h.movedOut, h.departures, if_true]
      omega⟩
  | @parks departure hparked hempty =>
    rw [departs_of_parked? hparked]
    exact ⟨Nat.le_refl 1, Nat.le_refl _, fun _ => by
      simp [Tracker.departed, hempty, Departures.size, Departures.empty]⟩
  | @claims cookie departure u hkind hget h =>
    rw [departs_of_kind_ne (by simp [hkind])]
    obtain ⟨hone, hempty⟩ := erase_of_get?_eq_some hsize hget
    have hdepartures : u.departures = .empty := h.departures.trans hempty
    refine ⟨by simp [hdepartures, Departures.size, Departures.empty], Nat.le_of_eq h.rebuilds.symm,
      ?_⟩
    intro _
    have hrenamed := h.renamed
    have hmovedOut := h.movedOut
    have hsize : u.departures.size = 0 := by rw [hdepartures]; rfl
    simp only [Tracker.departed, Bool.false_eq_true, if_false] at hrenamed hmovedOut ⊢
    omega

end Balanced

/-- The event that a step handles, with the state in which it is handled. -/
def Transition.handled? (transition : Transition) : Option (Tracker × Event) :=
  match transition.step with
  | .pump => transition.before.source.next?.map fun (event, source) =>
    ({ transition.before with source }, event)
  | .handle event => some (transition.before, event)
  | _ => none

/-- Whether a step handles an event that tells of a directory that left a watched one, once what
waited before has expired. -/
def Transition.departs (transition : Transition) : Bool :=
  transition.handled?.any fun (t, event) => (expire transition.moment t).state.departs event

variable {transition : Transition}

theorem Transition.after_of_handled? (h : transition.handled? = some (t, event)) :
    transition.after = (handle event transition.moment t).state := by
  have hends : (handle event).Ends transition.moment t
      (fun _ u => u = (handle event transition.moment t).state)
      fun _ u => u = (handle event transition.moment t).state := by
    unfold Ends
    split <;> rfl
  have hact : transition.step.act.Ends transition.moment transition.before
      (fun _ u => u = (handle event transition.moment t).state)
      fun _ u => u = (handle event transition.moment t).state := by
    unfold handled? at h
    split at h
    · next hstep =>
      obtain ⟨⟨event, source⟩, hnext, heq⟩ := Option.map_eq_some_iff.mp h
      cases heq
      rw [hstep, Step.act, ends_bind, ends_pump, hnext]
      exact hends
    · next hstep =>
      cases h
      rw [hstep, Step.act, ends_bind]
      exact hends
    · cases h
  exact hact.state

theorem departures_of_handled? (h : transition.handled? = some (t, event)) :
    t.departures = transition.before.departures ∧ t.counts = transition.before.counts := by
  unfold Transition.handled? at h
  split at h
  · obtain ⟨next, -, heq⟩ := Option.map_eq_some_iff.mp h
    cases heq
    exact ⟨rfl, rfl⟩
  · cases h
    exact ⟨rfl, rfl⟩
  · cases h

theorem departs_received (moment : Moment) (t : Tracker) (event : Event) :
    (t.received event).departs event = (expire moment t).state.departs event := by
  by_cases hkind : event.kind = .movedFrom
  · rw [received_eq moment, settledFor, completes_eq_false_of_movedFrom hkind]
    rfl
  · rw [departs_of_kind_ne hkind, departs_of_kind_ne hkind]

theorem Balanced.handle (moment : Moment) (event : Event) (hsize : t.departures.size ≤ 1) :
    Balanced t (if (expire moment t).state.departs event then 1 else 0)
      (handle event moment t).state := by
  have hreceived := received hsize event
  have hpairs := (ends_handle_pairs moment t event).state
  have h := hreceived.trans (of_pairs hreceived.size hpairs)
  rwa [Nat.zero_add, departs_received moment] at h

/-- A step counts what leaves in it. -/
theorem Balanced.after (transition : Transition) (hsize : transition.before.departures.size ≤ 1) :
    Balanced transition.before (if transition.departs then 1 else 0) transition.after := by
  have hR := eventLaw_sparesHalves
  cases hhandled : transition.handled? with
  | some found =>
    obtain ⟨t, event⟩ := found
    obtain ⟨hdepartures, hcounts⟩ := departures_of_handled? hhandled
    rw [Transition.after_of_handled? hhandled, Transition.departs, hhandled, Option.any_some]
    have h := handle transition.moment event (hdepartures ▸ hsize)
    exact ⟨h.size, hcounts ▸ h.rebuilds, by
      simpa only [Tracker.departed, hdepartures, hcounts] using h.departed⟩
  | none =>
    have hother {u : Tracker} : SparesHalves transition.before u → Balanced transition.before 0 u :=
      of_spares hsize
    have hact {α : Type} {x : Action Tracker α} (h : x.Obeys fun t _ u => SparesHalves t u) :=
      hother (hR.bind h (fun _ => hR.pure ()) transition.moment transition.before)
    rw [Transition.departs, hhandled]
    unfold Transition.handled? at hhandled
    obtain ⟨moment, before, step⟩ := transition
    cases step with
    | start => exact hact hR.start
    | push event => exact hother (.inl ⟨rfl, rfl, rfl, rfl⟩)
    | regulate refused refusesReset => exact hother (.inl ⟨rfl, rfl, rfl, rfl⟩)
    | pump =>
      have hends : Step.pump.act.Ends moment before (fun _ u => SparesHalves before u)
          fun _ u => SparesHalves before u := by
        rw [Step.act, ends_bind, ends_pump, Option.map_eq_none_iff.mp hhandled]
        exact ends_pure.mpr (hR.rest before)
      exact hother hends.state
    | handle event => cases hhandled
    | expire =>
      have hends : Step.expire.act.Ends moment before (fun _ u => Balanced before 0 u)
          fun _ u => Balanced before 0 u := by
        rw [Step.act, ends_bind, ends_expire]
        exact expired before
      exact hends.state
    | check => exact hact hR.check
    | rebuild => exact hact hR.rebuild

end Steps

section Runs

variable {admits : Transition → Prop} {history : List Transition} {source : Source} {roots : Roots}
  {policy : Policy}

theorem Run.balanced (h : Run admits t history u) (hsize : t.departures.size ≤ 1) :
    Balanced t (history.countP (·.departs)) u := by
  induction h with
  | nil t => exact .of_spares hsize (.inl (.refl t))
  | @cons transition history u _ _ ih =>
    have hstep := Balanced.after transition hsize
    rw [List.countP_cons, Nat.add_comm]
    exact hstep.trans (ih hstep.size)

/-- Unless the work starts over, each directory that left is found again, given up, or waits: one of
these, and once, whatever else happens and whatever fails. -/
theorem departures_are_conserved
    (h : Run (fun _ => True) (ofRoots source roots policy) history t)
    (hnone : t.counts.rebuilds = 0) :
    history.countP (·.departs) = t.counts.renamed + t.counts.movedOut + t.departures.size := by
  have hbalanced := h.balanced (Nat.zero_le 1)
  have hdeparted := hbalanced.departed hnone
  rw [show (ofRoots source roots policy).departed = 0 from rfl, Nat.zero_add] at hdeparted
  exact hdeparted.symm

/-- A rename whose other end is refused a watch, a directory that leaves without a cookie, and two
that leave with the same one, so that the second ends the wait of the first. -/
def partings : List (Moment × Step) :=
  let left : Moment :=
    ⟨⟨[([[114]], .directory 1), ([[114], [97]], .directory 2), ([[114], [98]], .directory 3)], 4⟩,
      0⟩
  let moved : Moment :=
    ⟨⟨[([[114]], .directory 1), ([[114], [98]], .directory 3), ([[114], [99]], .directory 2)], 4⟩,
      0⟩
  [(left, .start), (moved, .regulate [FileTree.pathOf [[114], [99]]] false),
    (moved, .handle ⟨⟨1⟩, .movedFrom, true, some 7, some [97]⟩),
    (moved, .handle ⟨⟨1⟩, .movedTo, true, some 7, some [99]⟩),
    (moved, .handle ⟨⟨1⟩, .movedFrom, true, none, some [98]⟩),
    (moved, .handle ⟨⟨1⟩, .movedFrom, true, some 8, some [97]⟩),
    (moved, .handle ⟨⟨1⟩, .movedFrom, true, some 8, some [98]⟩)]

theorem departures_are_conserved_of_partings :
    let t := ofRoots .empty ⟨[some ⟨FileTree.pathOf [[114]], 1⟩], 0⟩ ⟨true, .rescan⟩
    ((transitions t partings).filter fun transition => !decide transition.Succeeds).length = 1 ∧
      (outcome t partings).counts.renamed = 1 ∧ (outcome t partings).counts.movedOut = 2 ∧
      (transitions t partings).countP (·.departs) = 4 := by
  intro t
  have hrun : Run (fun _ => True) t (transitions t partings) (outcome t partings) :=
    run_transitions fun _ _ => trivial
  have hnone : (outcome t partings).counts.rebuilds = 0 := by decide +kernel
  have hrenamed : (outcome t partings).counts.renamed = 1 := by decide +kernel
  have hmovedOut : (outcome t partings).counts.movedOut = 2 := by decide +kernel
  have hsize : (outcome t partings).departures.size = 1 := by decide +kernel
  refine ⟨by decide +kernel, hrenamed, hmovedOut, ?_⟩
  rw [departures_are_conserved hrun hnone, hrenamed, hmovedOut, hsize]

/-- At most one first half waits. None waits where a new one is taken in, so that none ever gives
way, and after any event but an arrival that has the cookie of what waits, there waits what the
event itself left and nothing else. -/
theorem at_most_one_departure_waits
    (h : Run (fun _ => True) (ofRoots source roots policy) history t) :
    t.departures.size ≤ 1 ∧
    ∀ transition ∈ history, ∀ u event, transition.handled? = some (u, event) →
      (event.kind = .movedFrom →
        ∀ cookie, (u.settledFor transition.moment event).departures.get? cookie = none) ∧
      (∀ departure,
        (u.settledFor transition.moment event).parked? transition.moment.now event =
          some departure →
        transition.after =
          { (u.settledFor transition.moment event).counted with departures := ⟨[departure]⟩ }) ∧
      (u.completes event = false → transition.after.departures.waiting =
        ((u.settledFor transition.moment event).parked? transition.moment.now event).toList) := by
  refine ⟨(h.balanced (Nat.zero_le 1)).size, fun transition _ u event hhandled => ?_⟩
  have hpairs := (ends_handle_pairs transition.moment u event).state
  rw [← Transition.after_of_handled? hhandled, received_eq transition.moment] at hpairs
  have hempty (hclaims : u.completes event = false) :
      (u.settledFor transition.moment event).counted.departures = .empty :=
    received_eq transition.moment u event ▸ departures_received hclaims
  refine ⟨fun hkind cookie => ?_, fun departure => hpairs.eq_of_parked?,
    fun hclaims => hpairs.waiting_eq (hempty hclaims)⟩
  have hnone : (u.settledFor transition.moment event).departures = .empty :=
    hempty (completes_eq_false_of_movedFrom hkind)
  rw [hnone]
  rfl

/-- The first half that repeats a cookie finds that of the other gone. -/
theorem at_most_one_departure_waits_of_partings :
    let t := ofRoots .empty ⟨[some ⟨FileTree.pathOf [[114]], 1⟩], 0⟩ ⟨true, .rescan⟩
    ∃ transition ∈ transitions t partings, ∃ u event, transition.handled? = some (u, event) ∧
      event.cookie.any u.departures.contains = true ∧
      transition.after.departures.waiting = [⟨8, ⟨1⟩, FileTree.pathOf [[114], [98]], 0⟩] := by
  intro t
  have hrun : Run (fun _ => True) t (transitions t partings) (outcome t partings) :=
    run_transitions fun _ _ => trivial
  have hmem := List.get_mem (transitions t partings) ⟨6, by decide +kernel⟩
  obtain ⟨-, -, hleft⟩ := (at_most_one_departure_waits hrun).2 _ hmem _ _ rfl
  exact ⟨_, hmem, _, _, rfl, by decide +kernel,
    (hleft (by decide +kernel)).trans (by decide +kernel)⟩

end Runs

end Tracker

end TreeWatch
