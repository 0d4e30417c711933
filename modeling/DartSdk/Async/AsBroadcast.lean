import Mathlib.Logic.Basic

/-!
# Async/AsBroadcast — the controller of `asBroadcastStream`

`_AsBroadcastStreamController` keeps the events that are made while it delivers another event, and
delivers them afterwards.  What the listeners call during a delivery is part of a run, in which
there always are listeners; `addStream` is left out.

An error is not kept, but refused: `addError` asks first whether an event may be sent at once.  A
second `close` that finds events waiting fails its assertion (`delays_iff`).
-/

namespace AsBroadcast

variable {T E : Type}

/-! ## The controller -/

/-- `_DelayedEvent`. -/
inductive Event (T E : Type) where
  | data (value : T)
  | error (error : E)
  | done

/-- The bits of `_state`, the pending events, and the events that were sent so far. -/
structure Controller (T E : Type) where
  isClosed : Bool
  isFiring : Bool
  pending : List (Event T E)
  sent : List (Event T E)

namespace Controller

variable (s : Controller T E)

/-- `_mayAddEvent`. -/
def mayAddEvent : Bool := !s.isClosed && !s.isFiring

/-- The start of `_sendData`, `_sendError` and `_sendDone`. -/
def send (event : Event T E) : Controller T E :=
  { s with isFiring := true, sent := s.sent ++ [event] }

/-- `_addPendingEvent`.  No event is added after a done event, which closes the controller. -/
def addPendingEvent (event : Event T E) : Controller T E :=
  { s with pending := s.pending ++ [event] }

/-- `add`; `none` if it throws. -/
def add (data : T) : Option (Controller T E) :=
  if !s.isClosed && s.isFiring then s.addPendingEvent (.data data)
  else if !s.mayAddEvent then none
  else s.send (.data data)

/-- `addError`. -/
def addError (error : E) : Option (Controller T E) :=
  -- This throws during a delivery, so nothing is added to the pending events.
  if !s.mayAddEvent then none
  else if !s.isClosed && s.isFiring then s.addPendingEvent (.error error)
  else s.send (.error error)

/-- `close`.  Its last line is `assert(!_hasPending)`, behind `super.close()`.  On a closed
controller that call does nothing; on an open one it delivers the done event, after which nothing
waits (`pending_eq_nil`). -/
def close : Option (Controller T E) :=
  if !s.isClosed && s.isFiring then some { s.addPendingEvent .done with isClosed := true }
  else if s.isClosed then if s.pending.isEmpty then s else none
  else if !s.mayAddEvent then none
  else send { s with isClosed := true } .done

/-- The end of a delivery, and `_flushPending` up to the next one. -/
def flushPending : Controller T E :=
  match s.pending with
  | [] => { s with isFiring := false }
  | event :: pending => { s with pending }.send event

/-- A call that makes an event, or the end of a delivery. -/
def act : Option (Event T E) → Option (Controller T E)
  | some (.data value) => s.add value
  | some (.error error) => s.addError error
  | some .done => s.close
  | none => if s.isFiring then s.flushPending else s

variable {s} (actions : List (Option (Event T E)))

/-- A run, with the events that were made and did not throw.  A closed controller makes none. -/
def run : Controller T E × List (Event T E) :=
  actions.foldl (fun r action => (r.1.act action).elim r fun s =>
    (s, r.2 ++ if r.1.isClosed then [] else action.toList)) (⟨false, false, [], []⟩, [])

/-- The property holds of every event that is made during a delivery. -/
def During (P : Controller T E → Event T E → Prop) : Prop :=
  ∀ earlier event later, actions = earlier ++ some event :: later → (run earlier).1.isFiring →
    P (run earlier).1 event

/-- The events that were made are sent once and in order, and none waits but for a delivery. -/
structure Fifo (s : Controller T E) (made : List (Event T E)) : Prop where
  order : s.sent ++ s.pending = made
  idle : s.isFiring = false → s.pending = []

/-- Events made during a delivery are accepted, and all are delivered in order. -/
structure Delays : Prop where
  accepted : During actions fun s event => (s.act event).isSome
  fifo : (run actions).1.Fifo (run actions).2

variable {actions}

/-- **One action** puts the event it makes at the end. -/
theorem Fifo.act {made : List (Event T E)} (h : s.Fifo made) {action : Option (Event T E)}
    {s' : Controller T E} (hact : s.act action = some s') :
    s'.Fifo (made ++ if s.isClosed then [] else action.toList) := by
  obtain ⟨isClosed, isFiring, pending, sent⟩ := s
  obtain ⟨rfl, hidle⟩ := h
  cases isFiring with
  | false =>
    obtain rfl : pending = [] := hidle rfl
    cases isClosed <;> rcases action with _ | _ | _ | _ <;> cases hact <;>
      exact ⟨by simp [send], by simp [send]⟩
  | true =>
    cases action with
    | none =>
      cases hact
      cases pending <;> exact ⟨by simp [flushPending, send], by simp [flushPending, send]⟩
    | some event =>
      cases isClosed <;> cases event <;> cases pending <;> cases hact <;>
        exact ⟨by simp [addPendingEvent], nofun⟩

/-- The done event is the last one, once the controller is closed. -/
def DoneLast (s : Controller T E) : Prop :=
  if s.isClosed then ∃ events, s.sent ++ s.pending = events ++ [.done] ∧ .done ∉ events
  else .done ∉ s.sent ++ s.pending

theorem DoneLast.act {made : List (Event T E)} (h : s.DoneLast) (hfifo : s.Fifo made)
    {action : Option (Event T E)} {s' : Controller T E} (hact : s.act action = some s') :
    s'.DoneLast := by
  obtain ⟨isClosed, isFiring, pending, sent⟩ := s
  have hidle : isFiring = false → pending = [] := hfifo.idle
  rcases action with _ | _ | _ | _ <;> cases isClosed <;> cases isFiring <;> cases pending <;>
    cases hact <;> simp_all [DoneLast, flushPending, send, addPendingEvent]
  -- the first `close` during a delivery
  next event pending => exact ⟨sent ++ event :: pending, by simp, by simp [h]⟩

theorem run_spec : (run actions).1.Fifo (run actions).2 ∧ (run actions).1.DoneLast := by
  refine List.foldlRecOn (motive := fun r : Controller T E × _ => r.1.Fifo r.2 ∧ r.1.DoneLast) _ _
    ⟨⟨rfl, fun _ => rfl⟩, by simp [DoneLast]⟩ fun r hr action _ => ?_
  cases hact : r.1.act action with
  | none => exact hr
  | some s => exact ⟨hr.1.act hact, hr.2.act hr.1 hact⟩

/-- **Once the done event was sent, nothing waits.** -/
theorem pending_eq_nil (h : .done ∈ (run actions).1.sent) : (run actions).1.pending = [] := by
  have hlast : (run actions).1.DoneLast := run_spec.2
  obtain ⟨events, heq, hnot⟩ : ∃ events, (run actions).1.sent ++ (run actions).1.pending =
      events ++ [.done] ∧ .done ∉ events := by
    cases hclosed : (run actions).1.isClosed with
    | true => simpa [DoneLast, hclosed] using hlast
    | false => exact absurd (List.mem_append_left _ h) (by simpa [DoneLast, hclosed] using hlast)
  obtain hnil | ⟨pending, last, hpending⟩ := List.eq_nil_or_concat (run actions).1.pending
  · exact hnil
  rw [hpending, List.concat_eq_append, ← List.append_assoc] at heq
  exact absurd (List.mem_append_left pending h) ((List.append_inj' heq rfl).1 ▸ hnot)

/-- **Reentrant events** are delayed exactly if no error is made during a delivery, no data after
`close`, and no second `close` while events wait. -/
theorem delays_iff : Delays actions ↔ During actions fun s event =>
    (∀ error, event ≠ .error error) ∧ (s.isClosed → event = .done ∧ s.pending = []) := by
  have haccepts {s : Controller T E} (hfiring : s.isFiring) (event : Event T E) :
      (s.act event).isSome ↔
        (∀ error, event ≠ .error error) ∧ (s.isClosed → event = .done ∧ s.pending = []) := by
    cases hclosed : s.isClosed <;> cases event <;> cases hpending : s.pending <;>
      simp [act, add, addError, close, mayAddEvent, hclosed, hfiring, hpending]
  have hduring := forall₄_congr fun earlier event later
    (_ : actions = earlier ++ some event :: later) => forall_congr' fun hfiring => haccepts
    (s := (run earlier).1) hfiring event
  exact ⟨fun h => hduring.mp h.accepted, fun h => ⟨hduring.mpr h, run_spec.1⟩⟩

/-- An error during the delivery of a data event throws. -/
theorem not_delays_error : ¬ Delays (T := Nat) (E := Nat) [some (.data 0), some (.error 0)] :=
  fun h => absurd (h.accepted [some (.data 0)] _ [] rfl rfl) (by decide)

end Controller

end AsBroadcast
