import TreeWatch.Proofs.Source.Histories
import TreeWatch.Proofs.Tracker.Laws

/-!
# What a tracker asks of its source

Apart from taking events, a tracker asks three things of its source: a watch, the end of a watch,
and to start over. So the source of a tracker that did something went through a history of such
calls, and what is known of histories is known of it. To handle an event is to count it once and
then to ask.
-/

namespace TreeWatch

namespace Source

/-- Whether a call asks something of the source. -/
def Call.asks (call : Call) : Bool :=
  match call.request with
  | .add _ | .remove _ | .reset => true
  | _ => false

/-- Whether a call comes from around: an event, or how the source is to go on. -/
def Call.supplies (call : Call) : Bool :=
  match call.request with
  | .push _ | .close | .fail | .regulate _ _ => true
  | _ => false

theorem Call.of_asks {call : Call} (h : call.asks = true) :
    call.supplies = false ∧ call.request ≠ .next := by
  obtain ⟨tree, request⟩ := call
  cases request <;> simp_all [asks, supplies]

theorem Call.ne_next_of_supplies {call : Call} (h : call.supplies = true) :
    call.request ≠ .next := by
  intro hnext
  simp [supplies, hnext] at h

end Source

namespace Tracker

open TreeWatch.Action

variable {moment : Moment} {t u : Tracker} {event : Event}

/-- Between two states the source was asked some things, and no event was counted. -/
def Asks (t u : Tracker) : Prop :=
  u.counts.events = t.counts.events ∧
    ∃ calls : List Source.Call, (∀ call ∈ calls, call.asks = true) ∧
    u.source = t.source.outcome calls

theorem Asks.of_same (hevents : u.counts.events = t.counts.events) (hsource : u.source = t.source) :
    Asks t u := ⟨hevents, [], nofun, hsource⟩

theorem Asks.single (call : Source.Call) (hevents : u.counts.events = t.counts.events)
    (hcall : call.asks = true) (hsource : u.source = t.source.serve call) : Asks t u :=
  ⟨hevents, [call], by simpa using hcall, hsource⟩

theorem Asks.trans {v : Tracker} (h : Asks t u) (h' : Asks u v) : Asks t v := by
  obtain ⟨hevents, calls, hcalls, hsource⟩ := h
  obtain ⟨hevents', more, hmore, hsource'⟩ := h'
  refine ⟨hevents'.trans hevents, calls ++ more, ?_, ?_⟩
  · intro call hcall
    exact (List.mem_append.mp hcall).elim (hcalls call) (hmore call)
  · rw [hsource', hsource, Source.outcome_append]

/-- Once an event is counted, all that is done for it is to ask. -/
theorem moveLaw_asks : MoveLaw fun t _ u => Asks t u where
  rest _ := .of_same rfl rfl
  next h h' := h.trans h'
  said _ _ _ := .of_same rfl rfl
  asked {t tree path id source} hadd :=
    .single ⟨tree, .add path⟩ rfl rfl (by simp only [Source.serve, hadd])
  released {t id source} hremove :=
    .single ⟨.empty, .remove id⟩ rfl rfl (by simp only [Source.serve, hremove])
  table _ _ := .of_same rfl rfl
  draining _ _ := .of_same rfl rfl
  retired path moment t := by
    simp only [state_retireRoot]
    unfold withoutRoot
    split <;> exact .of_same rfl rfl
  cleared {t source} hreset :=
    .single ⟨.empty, .reset⟩ rfl rfl (by simp only [Source.serve, hreset, cleared])
  noted _ _ _ _ _ := .of_same rfl rfl
  moved _ _ _ _ := .of_same rfl rfl

end Tracker

end TreeWatch
