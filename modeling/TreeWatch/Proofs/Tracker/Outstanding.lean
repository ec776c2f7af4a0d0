import Mathlib.Data.Prod.Lex
import TreeWatch.Proofs.Tracker.Asking
import TreeWatch.Proofs.Tracker.Changes
import TreeWatch.Proofs.Tracker.Pairing

/-!
# Left alone, a source runs dry

Handling an event may queue others, but only ones that announce the end of a watch, and those queue
nothing once no departure waits. So what a tracker has still to handle comes down with every event,
if nothing is added to its source from around.
-/

namespace TreeWatch

namespace Source

/-- The number of events that wait and do not announce the end of a watch. -/
def news (source : Source) : Nat := source.queue.countP (·.kind != .ignored)

theorem news_of_next? {source next : Source} {event : Event}
    (h : source.next? = some (event, next)) :
    source.queue.length = next.queue.length + 1 ∧
      source.news = next.news + if event.kind = .ignored then 0 else 1 := by
  obtain ⟨rest, hqueue, rfl, -⟩ := next?_eq_some h
  rw [news, hqueue, List.countP_cons, List.length_cons]
  refine ⟨rfl, ?_⟩
  by_cases hkind : event.kind = .ignored <;> simp [hkind, news]

end Source

namespace Tracker

open TreeWatch.Action

variable {moment : Moment} {t u : Tracker} {event : Event} {source : Source}

/-- Nothing that is asked of a source brings news. -/
theorem moveLaw_news : MoveLaw fun t _ u => u.source.news ≤ t.source.news where
  rest _ := Nat.le_refl _
  next h h' := Nat.le_trans h' h
  said _ _ _ := Nat.le_refl _
  asked {t tree path id source} hadd := by
    simp only [Source.news, Source.queue_of_add hadd, Nat.le_refl]
  released {t id source} hremove := by
    simp only [Source.news, Source.queue_of_remove hremove, List.countP_append]
    exact Nat.le_refl _
  table _ _ := Nat.le_refl _
  draining _ _ := Nat.le_refl _
  retired path moment t := by simp only [state_retireRoot, source_withoutRoot, Nat.le_refl]
  cleared {t source} hreset := by
    obtain ⟨-, rfl⟩ := Source.reset_eq_ok_iff.mp hreset
    exact Nat.zero_le _
  noted _ _ _ _ _ := Nat.le_refl _
  moved _ _ _ _ := Nat.le_refl _

/-- What a tracker has still to handle: news first, then departures that wait, then all that is
queued. -/
def outstanding (t : Tracker) : ℕ ×ₗ ℕ ×ₗ ℕ :=
  toLex (t.source.news, toLex (t.departures.size, t.source.queue.length))

theorem outstanding_lt_of_news (h : u.source.news < t.source.news) :
    u.outstanding < t.outstanding :=
  Prod.Lex.toLex_lt_toLex.mpr (.inl h)

theorem outstanding_lt_of_departures (hnews : u.source.news ≤ t.source.news)
    (hempty : u.departures = .empty) (hwaits : t.departures.isEmpty = false) :
    u.outstanding < t.outstanding := by
  have hsize : u.departures.size < t.departures.size := by
    rw [hempty]
    exact List.length_pos_iff.mpr (by simpa [Departures.isEmpty] using hwaits)
  exact Prod.Lex.toLex_lt_toLex'.mpr ⟨hnews, fun _ => Prod.Lex.toLex_lt_toLex.mpr (.inl hsize)⟩

theorem outstanding_lt_of_queue (hnews : u.source.news ≤ t.source.news)
    (hdepartures : u.departures = t.departures)
    (hqueue : u.source.queue.length < t.source.queue.length) :
    u.outstanding < t.outstanding := by
  refine Prod.Lex.toLex_lt_toLex'.mpr ⟨hnews, fun _ =>
    Prod.Lex.toLex_lt_toLex.mpr (.inr ⟨?_, hqueue⟩)⟩
  rw [hdepartures]

theorem outstanding_expired_lt (hwaits : t.departures.isEmpty = false) :
    t.expired.outstanding < t.outstanding := by
  have hnews : t.expired.source.news ≤ t.source.news :=
    ends_expire.mp (moveLaw_news.expire.ends ⟨.empty, 0⟩ t)
  exact outstanding_lt_of_departures hnews (movesOut_expired t).departures hwaits

theorem departures_ended (t : Tracker) (id : WatchId) : (t.ended id).departures = t.departures := by
  obtain ⟨h, -⟩ | ⟨slot, entry, -, -, h⟩ := ended_eq_or t id <;> simp [h]

theorem state_handle_ignored (hkind : event.kind = .ignored) (moment : Moment) (t : Tracker) :
    (handle event moment t).state = (t.received event).ended event.watch := by
  have hends : (handle event).Ends moment t (fun _ u => u = (t.received event).ended event.watch)
      fun _ u => u = (t.received event).ended event.watch := by
    rw [ends_handle, if_neg (by simp [isStale, hkind]), applyEvent, hkind]
    exact ends_onIgnored.mpr rfl
  exact hends.state

/-- An event that is handled leaves less to handle. -/
theorem outstanding_handle_lt (hnext : t.source.next? = some (event, source)) (moment : Moment) :
    (handle event moment { t with source }).state.outstanding < t.outstanding := by
  obtain ⟨hqueue, hnews⟩ := Source.news_of_next? hnext
  have hle := moveLaw_news.handle_counted event moment { t with source }
  by_cases hkind : event.kind = .ignored
  · rw [if_pos hkind, Nat.add_zero] at hnews
    have hcompletes : ({ t with source } : Tracker).completes event = false := by
      simp [completes, hkind]
    rw [state_handle_ignored hkind] at hle ⊢
    cases hwaits : t.departures.isEmpty with
    | true =>
      have hreceived : ({ t with source } : Tracker).received event = counted { t with
          source } := by
        simp [received, hwaits, counted]
      rw [hreceived] at hle ⊢
      apply outstanding_lt_of_queue (hnews ▸ hle)
      · rw [departures_ended]
        rfl
      · rw [source_ended, hqueue]
        exact Nat.lt_succ_self _
    | false =>
      apply outstanding_lt_of_departures (hnews ▸ hle) _ hwaits
      rw [departures_ended, departures_received hcompletes]
  · rw [if_neg hkind] at hnews
    have hsource : source.news < t.source.news := by omega
    exact outstanding_lt_of_news (Nat.lt_of_le_of_lt hle hsource)

end Tracker

end TreeWatch
