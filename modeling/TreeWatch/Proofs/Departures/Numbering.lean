import Mathlib.Algebra.Group.Nat.Defs
import Mathlib.Data.List.Nodup
import TreeWatch.Departures.Book

/-!
# The order of arrival

A book of departures answers every request as the list of the departures does, whatever the order in
which a walk over its map meets them. Sorting by number gives the list back because numbers go up
along it, and the least time of arrival is that of its head because times do not go down along it.
That is so as long as the numbers last and the clock does not go back.
-/

namespace TreeWatch

namespace Departures

variable {departures : Departures} {request : Request} {requests rest : List Request}

/-! ## What comes in and what goes out -/

def Request.arriving : Request → List Departure
  | .insert departure => [departure]
  | _ => []

/-- The departures that requests bring, in the order of the requests. -/
def arriving (requests : List Request) : List Departure := requests.flatMap Request.arriving

def Answer.handedOut : Answer → List Departure
  | .one departure? => departure?.toList
  | .all departures => departures
  | _ => []

/-- The departures in the answers that requests got. -/
def handedOut (observations : List Observation) : List Departure :=
  observations.flatMap (·.answer.handedOut)

/-- What a request throws away. -/
def dropped (departures : Departures) : Request → List Departure
  | .clear => departures.waiting
  | _ => []

/-- What requests throw away, made one after the other. -/
def droppedBy : Departures → List Request → List Departure
  | _, [] => []
  | departures, request :: rest =>
    departures.dropped request ++ droppedBy (departures.perform request).2 rest

@[simp] theorem arriving_nil : arriving [] = [] := rfl

@[simp] theorem arriving_cons : arriving (request :: rest) = request.arriving ++ arriving rest :=
  rfl

/-- No cookie waits twice. -/
def Distinct (departures : Departures) : Prop := (departures.waiting.map (·.cookie)).Nodup

theorem distinct_empty : empty.Distinct := List.nodup_nil

theorem distinct_erase (h : departures.Distinct) (cookie : Nat) :
    (departures.erase cookie).Distinct :=
  h.sublist (List.filter_sublist.map _)

theorem distinct_insert (h : departures.Distinct) (departure : Departure) :
    (departures.insert departure).Distinct := by
  unfold Distinct insert
  rw [List.map_append, List.nodup_append]
  refine ⟨distinct_erase h _, List.nodup_singleton _, ?_⟩
  rintro kept hkept fresh hfresh rfl
  obtain ⟨other, hother, rfl⟩ := List.mem_map.mp hkept
  have hdiffers : other.cookie ≠ departure.cookie := by simpa using (List.mem_filter.mp hother).2
  exact hdiffers (by simpa using hfresh)

theorem distinct_perform (h : departures.Distinct) (request : Request) :
    (departures.perform request).2.Distinct := by
  cases request with
  | insert departure => exact distinct_insert h departure
  | take cookie => exact distinct_erase h cookie
  | contains cookie => exact h
  | drain => exact distinct_empty
  | clear => exact distinct_empty

theorem distinct_serve (h : departures.Distinct) (requests : List Request) :
    (serve requests departures).2.Distinct := by
  induction requests generalizing departures with
  | nil => exact h
  | cons request rest ih => exact ih (distinct_perform h request)

theorem perm_erase (h : departures.Distinct) (cookie : Nat) :
    departures.waiting.Perm ((departures.get? cookie).toList ++
      (departures.erase cookie).waiting) := by
  obtain ⟨waiting⟩ := departures
  simp only [Distinct, get?, erase] at h ⊢
  induction waiting with
  | nil => rfl
  | cons head rest ih =>
    obtain ⟨hfresh, hrest⟩ := List.nodup_cons.mp h
    by_cases hcookie : head.cookie = cookie
    · have hothers : ∀ departure ∈ rest, departure.cookie ≠ cookie := fun departure hmem heq =>
        hfresh (List.mem_map.mpr ⟨departure, hmem, heq.trans hcookie.symm⟩)
      have hkept : rest.filter (·.cookie != cookie) = rest :=
        List.filter_eq_self.mpr (by simpa using hothers)
      simp [hcookie, hkept]
    · have hkept : (head.cookie == cookie) = false := by simpa using hcookie
      simp only [List.find?_cons, hkept, List.filter_cons, bne, Bool.not_false, if_true]
      exact ((ih hrest).cons head).trans List.perm_middle.symm

/-- A departure that comes in waits, or it has been handed out or thrown away, and what waited
before likewise. -/
theorem perm_perform (h : departures.Distinct) (request : Request) :
    (departures.waiting ++ request.arriving).Perm
      ((departures.perform request).1.handedOut ++ departures.dropped request ++
        (departures.perform request).2.waiting) := by
  cases request with
  | insert departure =>
    simpa [perform, Answer.handedOut, dropped, Request.arriving, insert, List.append_assoc] using
      (perm_erase h departure.cookie).append_right [departure]
  | take cookie =>
    simpa [perform, Answer.handedOut, dropped, Request.arriving] using perm_erase h cookie
  | contains cookie => simp [perform, Answer.handedOut, dropped, Request.arriving]
  | drain => simp [perform, Answer.handedOut, dropped, Request.arriving, empty]
  | clear => simp [perform, Answer.handedOut, dropped, Request.arriving, empty]

theorem perm_serve (h : departures.Distinct) (requests : List Request) :
    (departures.waiting ++ arriving requests).Perm
      (handedOut (serve requests departures).1 ++ departures.droppedBy requests ++
        (serve requests departures).2.waiting) := by
  induction requests generalizing departures with
  | nil => simp [serve, handedOut, droppedBy]
  | cons request rest ih =>
    have hstep := (perm_perform h request).append_right (arriving rest)
    have hrest := (ih (distinct_perform h request)).append_left
      ((departures.perform request).1.handedOut ++ departures.dropped request)
    simp only [arriving_cons, serve, handedOut, droppedBy, List.flatMap_cons,
      List.append_assoc] at hstep hrest ⊢
    refine hstep.trans (hrest.trans ((List.Perm.append_left _ ?_)))
    exact (List.perm_append_comm_assoc _ _ _)

theorem waiting_perform_sublist :
    (departures.perform request).2.waiting.Sublist (departures.waiting ++ request.arriving) := by
  cases request with
  | insert departure => exact List.filter_sublist.append_right _
  | take cookie => exact List.filter_sublist.trans (List.sublist_append_left ..)
  | contains cookie => exact List.sublist_append_left ..
  | drain => exact List.nil_sublist _
  | clear => exact List.nil_sublist _

theorem waiting_perform_arriving_sublist :
    ((departures.perform request).2.waiting ++ arriving rest).Sublist
      (departures.waiting ++ arriving (request :: rest)) := by
  rw [arriving_cons, ← List.append_assoc]
  exact waiting_perform_sublist.append_right _

theorem waiting_serve_sublist :
    (serve requests departures).2.waiting.Sublist (departures.waiting ++ arriving requests) := by
  induction requests generalizing departures with
  | nil => simp [serve]
  | cons request rest ih => exact ih.trans waiting_perform_arriving_sublist

end Departures

namespace DepartureBook

open Departures (Request arriving handedOut)

variable {book : DepartureBook} {arrivals : List Arrival} {order : Order} {departures : Departures}
  {requests : List Request}

/-! ## What a book holds -/

def listed (arrivals : List Arrival) : Departures := ⟨arrivals.map (·.departure)⟩

theorem listed_filter (arrivals : List Arrival) (cookie : Nat) :
    listed (arrivals.filter (·.departure.cookie != cookie)) = (listed arrivals).erase cookie := by
  simp [listed, Departures.erase, List.filter_map, Function.comp_def]

theorem listed_replace (arrivals : List Arrival) (number : UInt64) (departure : Departure) :
    listed (arrivals.filter (·.departure.cookie != departure.cookie) ++ [⟨number, departure⟩]) =
      (listed arrivals).insert departure := by
  rw [Departures.insert, ← listed_filter]
  simp [listed]

/-- A book holds arrivals: it finds them by their cookies, and their numbers go up to the next
one. -/
structure Holds (book : DepartureBook) (arrivals : List Arrival) : Prop where
  found : ∀ cookie, book.pending[cookie]? = arrivals.find? (·.departure.cookie == cookie)
  distinct : (listed arrivals).Distinct
  ascending : arrivals.Pairwise (·.number < ·.number)
  below : ∀ arrival ∈ arrivals, arrival.number < book.next

theorem holds_of_pending_eq_empty (h : book.pending = ∅) : book.Holds [] :=
  ⟨by simp [h], List.nodup_nil, .nil, by simp⟩

theorem Holds.get? (h : book.Holds arrivals) (cookie : Nat) :
    book.get? cookie = (listed arrivals).get? cookie := by
  simp only [DepartureBook.get?, Departures.get?, listed, h.found, List.find?_map]
  rfl

theorem Holds.cookies_nodup (h : book.Holds arrivals) :
    (arrivals.map (·.departure.cookie)).Nodup := by
  simpa [Departures.Distinct, listed, Function.comp_def] using h.distinct

theorem Holds.mem_toList_iff (h : book.Holds arrivals) {cookie : Nat} {arrival : Arrival} :
    (cookie, arrival) ∈ book.pending.toList ↔
      arrival ∈ arrivals ∧ arrival.departure.cookie = cookie := by
  rw [Std.HashMap.mem_toList_iff_getElem?_eq_some, h.found]
  constructor
  · intro hfind
    exact ⟨List.mem_of_find?_eq_some hfind, by simpa using List.find?_some hfind⟩
  · rintro ⟨hmem, rfl⟩
    have hsome : (arrivals.find? (·.departure.cookie == arrival.departure.cookie)).isSome :=
      List.find?_isSome.mpr ⟨arrival, hmem, beq_self_eq_true _⟩
    obtain ⟨other, hother⟩ := Option.isSome_iff_exists.mp hsome
    rw [hother, List.inj_on_of_nodup_map h.cookies_nodup (List.mem_of_find?_eq_some hother) hmem
      (by simpa using List.find?_some hother)]

/-- The pairs of the map are the arrivals with their cookies, in some order. -/
theorem Holds.toList_perm (h : book.Holds arrivals) :
    book.pending.toList.Perm (arrivals.map fun arrival => (arrival.departure.cookie, arrival)) := by
  have hpairs : book.pending.toList.Nodup :=
    Std.HashMap.distinct_keys_toList.imp fun hkeys heq => by simp [heq] at hkeys
  have harrivals : (arrivals.map fun arrival => (arrival.departure.cookie, arrival)).Nodup :=
    List.Nodup.of_map Prod.fst (by simpa [Function.comp_def] using h.cookies_nodup)
  rw [List.perm_ext_iff_of_nodup hpairs harrivals]
  rintro ⟨cookie, arrival⟩
  rw [h.mem_toList_iff, List.mem_map]
  constructor
  · rintro ⟨hmem, rfl⟩
    exact ⟨arrival, hmem, rfl⟩
  · rintro ⟨other, hmem, heq⟩
    obtain ⟨rfl, rfl⟩ := Prod.mk.inj heq
    exact ⟨hmem, rfl⟩

theorem Holds.size (h : book.Holds arrivals) : book.size = arrivals.length := by
  rw [DepartureBook.size, ← Std.HashMap.length_toList, h.toList_perm.length_eq, List.length_map]

theorem Holds.isEmpty (h : book.Holds arrivals) : book.isEmpty = arrivals.isEmpty := by
  rw [DepartureBook.isEmpty, Std.HashMap.isEmpty_eq_size_eq_zero, ← DepartureBook.size, h.size]
  cases arrivals <;> simp

theorem Holds.contains (h : book.Holds arrivals) (cookie : Nat) :
    book.contains cookie = (listed arrivals).contains cookie := by
  rw [Departures.contains, ← h.get?, DepartureBook.contains, DepartureBook.get?, Option.isSome_map,
    Std.HashMap.contains_eq_isSome_getElem?]

section Walks

variable (horder : ∀ pairs, (order pairs).Perm pairs)
include horder

theorem Holds.arrivals_perm (h : book.Holds arrivals) : (book.arrivals order).Perm arrivals := by
  have hpairs := ((horder book.pending.toList).trans h.toList_perm).map Prod.snd
  simpa [DepartureBook.arrivals, Function.comp_def] using hpairs

theorem Holds.mergeSort_arrivals (h : book.Holds arrivals) :
    ((book.arrivals order).mergeSort fun a b => a.number ≤ b.number) = arrivals := by
  have hsorted : ((book.arrivals order).mergeSort fun a b => a.number ≤ b.number).Pairwise
      (fun a b => decide (a.number ≤ b.number) = true) :=
    List.pairwise_mergeSort (by simpa using fun _ _ _ => UInt64.le_trans)
      (by simpa using fun _ _ => UInt64.le_total _ _) _
  have hperm := (List.mergeSort_perm (book.arrivals order) fun a b => a.number ≤ b.number).trans
    (h.arrivals_perm horder)
  have hascending : arrivals.Pairwise (fun a b => decide (a.number ≤ b.number) = true) :=
    h.ascending.imp fun hlt => decide_eq_true (UInt64.le_of_lt hlt)
  refine hperm.eq_of_pairwise (fun a b ha hb hab hba => ?_) hsorted hascending
  -- Two arrivals with one number are the same arrival.
  have hnumber : a.number = b.number :=
    UInt64.le_antisymm (of_decide_eq_true hab) (of_decide_eq_true hba)
  have hnumbers : (arrivals.map (·.number)).Nodup :=
    List.pairwise_map.mpr (h.ascending.imp fun hlt => UInt64.ne_of_lt hlt)
  exact List.inj_on_of_nodup_map hnumbers (hperm.mem_iff.mp ha) hb hnumber

theorem Holds.drain (h : book.Holds arrivals) :
    (book.drain order).1 = (listed arrivals).waiting := by
  rw [DepartureBook.drain, h.mergeSort_arrivals horder, listed]

/-- The least time of arrival is that of the first, whichever is met first on a walk. -/
theorem Holds.oldest? (h : book.Holds arrivals)
    (htimes : (listed arrivals).waiting.Pairwise (·.since ≤ ·.since)) :
    book.oldest? order = (listed arrivals).oldest? := by
  have hperm := (h.arrivals_perm horder).map (·.departure.since)
  unfold DepartureBook.oldest? Departures.oldest? listed
  cases arrivals with
  | nil => simpa using hperm
  | cons first rest =>
    simp only [List.map_cons, List.head?_cons, Option.map_some, List.min?_eq_some_iff]
    obtain ⟨hleast, -⟩ := List.pairwise_cons.mp (by simpa only [listed, List.map_cons] using htimes)
    refine ⟨hperm.mem_iff.mpr (List.mem_map_of_mem List.mem_cons_self), fun time htime => ?_⟩
    obtain ⟨arrival, harrival, rfl⟩ := List.mem_map.mp (hperm.mem_iff.mp htime)
    rcases List.mem_cons.mp harrival with rfl | hrest
    · exact Nat.le_refl _
    · exact hleast _ (List.mem_map_of_mem hrest)

end Walks

/-! ## Requests -/

theorem Holds.erase (h : book.Holds arrivals) (cookie : Nat) :
    (book.take cookie).2.Holds (arrivals.filter (·.departure.cookie != cookie)) where
  found := by
    intro other
    simp only [take, Std.HashMap.getElem?_erase, h.found, List.find?_filter]
    split
    · rename_i heq
      obtain rfl : cookie = other := by simpa using heq
      simp [List.find?_eq_none.mpr]
    · rename_i hne
      congr 1
      funext arrival
      by_cases hcookie : arrival.departure.cookie = other
      · subst hcookie
        have hother : cookie ≠ arrival.departure.cookie := by simpa using hne
        simp [hother.symm]
      · simp [hcookie]
  distinct := by
    rw [listed_filter]
    exact Departures.distinct_erase h.distinct cookie
  ascending := h.ascending.sublist List.filter_sublist
  below := fun arrival hmem => h.below arrival (List.mem_filter.mp hmem).1

theorem Holds.insert (h : book.Holds arrivals) (departure : Departure)
    (hnext : book.next.toNat + 1 < 2 ^ 64) :
    (book.insert departure).2.Holds
      (arrivals.filter (·.departure.cookie != departure.cookie) ++ [⟨book.next, departure⟩]) := by
  have hkept := h.erase departure.cookie
  have hlt : book.next < book.next + 1 := by
    rw [UInt64.lt_iff_toNat_lt, UInt64.toNat_add, UInt64.toNat_one, Nat.mod_eq_of_lt hnext]
    exact Nat.lt_succ_self _
  constructor
  · intro cookie
    have hfound := hkept.found cookie
    simp only [take, Std.HashMap.getElem?_erase] at hfound
    simp only [DepartureBook.insert, Std.HashMap.getElem?_insert, List.find?_append, ← hfound]
    by_cases hcookie : departure.cookie = cookie <;> simp [hcookie]
  · rw [listed_replace]
    exact Departures.distinct_insert h.distinct departure
  · rw [List.pairwise_append]
    refine ⟨hkept.ascending, List.pairwise_singleton .., fun arrival hmem fresh hfresh => ?_⟩
    obtain rfl := List.mem_singleton.mp hfresh
    exact hkept.below arrival hmem
  · intro arrival hmem
    rcases List.mem_append.mp hmem with hold | hnew
    · exact UInt64.lt_trans (hkept.below arrival hold) hlt
    · obtain rfl := List.mem_singleton.mp hnew
      exact hlt

/-- Every request is answered as the list answers it, and the book then holds what the list has. -/
theorem Holds.perform (horder : ∀ pairs, (order pairs).Perm pairs) (h : book.Holds arrivals)
    (request : Request) (hnumbers : book.next.toNat + request.arriving.length < 2 ^ 64) :
    (book.perform order request).1 = ((listed arrivals).perform request).1 ∧
      (book.perform order request).2.next.toNat = book.next.toNat + request.arriving.length ∧
      ∃ later, (book.perform order request).2.Holds later ∧
        listed later = ((listed arrivals).perform request).2 := by
  cases request with
  | insert departure =>
    refine ⟨congrArg _ (h.get? departure.cookie), ?_, _, h.insert departure hnumbers,
      listed_replace arrivals book.next departure⟩
    simpa [DepartureBook.perform, DepartureBook.insert, UInt64.toNat_add, Request.arriving] using
      Nat.mod_eq_of_lt hnumbers
  | take cookie =>
    exact ⟨congrArg _ (h.get? cookie), rfl, _, h.erase cookie, listed_filter arrivals cookie⟩
  | contains cookie => exact ⟨congrArg _ (h.contains cookie), rfl, arrivals, h, rfl⟩
  | drain => exact ⟨congrArg _ (h.drain horder), rfl, [], holds_of_pending_eq_empty rfl, rfl⟩
  | clear => exact ⟨rfl, rfl, [], holds_of_pending_eq_empty rfl, rfl⟩

theorem Holds.serve (horder : ∀ pairs, (order pairs).Perm pairs) (h : book.Holds arrivals)
    (hnumbers : book.next.toNat + (arriving requests).length < 2 ^ 64)
    (htimes : ((listed arrivals).waiting ++ arriving requests).Pairwise (·.since ≤ ·.since)) :
    (book.serve order requests).1 = ((listed arrivals).serve requests).1 ∧
      ∃ later, (book.serve order requests).2.Holds later ∧
        listed later = ((listed arrivals).serve requests).2 := by
  induction requests generalizing book arrivals with
  | nil => exact ⟨rfl, arrivals, h, rfl⟩
  | cons request rest ih =>
    simp only [Departures.arriving_cons, List.length_append] at hnumbers
    obtain ⟨hanswer, hnext, later, hholds, hlater⟩ := h.perform horder request (by omega)
    have htimes' : ((listed later).waiting ++ arriving rest).Pairwise (·.since ≤ ·.since) := by
      rw [hlater]
      exact htimes.sublist Departures.waiting_perform_arriving_sublist
    obtain ⟨hrest, hlast⟩ := ih hholds (by omega) htimes'
    have hsize := hholds.size
    have hempty := hholds.isEmpty
    have holdest := hholds.oldest? horder (List.pairwise_append.mp htimes').1
    simp only [DepartureBook.serve, Departures.serve]
    rw [← hlater, hanswer, hrest, hsize, hempty, holdest]
    refine ⟨?_, hlast⟩
    simp [listed, Departures.size, Departures.isEmpty]

/-- A book that is empty at first answers as the list of the departures does, which is ordered by
arrival and has every cookie once. What has come in has been handed out, was thrown away by a clear,
or still waits, and it is one of these only. -/
theorem serves_in_order_of_arrival (horder : ∀ pairs, (order pairs).Perm pairs)
    (hnumbers : (arriving requests).length < 2 ^ 64)
    (htimes : (arriving requests).Pairwise (·.since ≤ ·.since)) :
    let served := empty.serve order requests
    let waiting := (Departures.empty.serve requests).2.waiting
    served.1 = (Departures.empty.serve requests).1 ∧
      (served.2.drain order).1 = waiting ∧
      waiting.Sublist (arriving requests) ∧
      (waiting.map (·.cookie)).Nodup ∧
      (arriving requests).Perm
        (handedOut served.1 ++ Departures.empty.droppedBy requests ++ waiting) := by
  obtain ⟨hobservations, later, hholds, hlater⟩ :=
    (holds_of_pending_eq_empty rfl : empty.Holds []).serve horder (by simpa [empty] using hnumbers)
      htimes
  refine ⟨hobservations, ?_, Departures.waiting_serve_sublist,
    Departures.distinct_serve Departures.distinct_empty requests, ?_⟩
  · rw [hholds.drain horder, hlater]
    rfl
  · rw [hobservations]
    exact Departures.perm_serve Departures.distinct_empty requests

/-- The cookie 7 is used again while it waits. The departure that gives way is handed back, and the
new one stands behind the one with the cookie 8. -/
theorem superseding_departure_waits_last :
    (empty.serve List.reverse
      [.insert ⟨7, ⟨1⟩, ⟨[47, 97]⟩, 10⟩, .insert ⟨8, ⟨1⟩, ⟨[47, 98]⟩, 20⟩,
        .insert ⟨7, ⟨2⟩, ⟨[47, 99]⟩, 30⟩,
        .drain]).1 =
      [⟨.one none, 1, false, some 10⟩,
        ⟨.one none, 2, false, some 10⟩,
        ⟨.one (some ⟨7, ⟨1⟩, ⟨[47, 97]⟩, 10⟩), 2, false, some 20⟩,
        ⟨.all [⟨8, ⟨1⟩, ⟨[47, 98]⟩, 20⟩, ⟨7, ⟨2⟩, ⟨[47, 99]⟩, 30⟩], 0, true, none⟩] :=
  (serves_in_order_of_arrival List.reverse_perm (by decide) (by decide)).1.trans (by decide)

end DepartureBook

end TreeWatch
