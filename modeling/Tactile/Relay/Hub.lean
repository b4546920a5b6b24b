import Tactile.Lib.NestedMap
import Tactile.Relay.Rest

/-!
The hub, which routes events and signaling frames between the connections of one
identity.
-/

namespace Tactile.Relay.Hub

open Tactile.Lib.FiniteMap Tactile.Lib.NestedMap
open Tactile.Relay.Blob
open Tactile.Relay.ClientIP (Text)

/-- A connection registered under an identity: whether it receives blob events,
and the connection whose queue its channel is. -/
structure Subscriber where
  connID : Text
  events : Bool
  send : ℕ
  deriving DecidableEq

/-- The subscribers by identity and connection id. -/
abbrev Subs : Type := Nested IdentityID Text Subscriber

namespace Subs

/-- Registers a subscriber; false when the connection id is already subscribed for
the identity. -/
def subscribe (h : Subs) (id : IdentityID) (s : Subscriber) : Bool × Subs :=
  if (find h id s.connID).isSome then (false, h) else (true, put h id s.connID s)

/-- Toggles event delivery for an existing subscriber. -/
def setEvents (h : Subs) (id : IdentityID) (connID : Text) (on : Bool) : Bool × Subs :=
  match find h id connID with
  | none => (false, h)
  | some s => (true, put h id connID { s with events := on })

def unsubscribe (h : Subs) (id : IdentityID) (connID : Text) : Subs := drop h id connID

/-- The subscribers of an identity that `publish` sends to. -/
def eventReceivers (h : Subs) (id : IdentityID) (excludeConnID : Text) : List Subscriber :=
  ((pairs (inner h id)).filter fun e => e.1 ≠ excludeConnID ∧ e.2.events = true).map Prod.snd

/-- The subscribers of an identity that `broadcast` sends to. -/
def receivers (h : Subs) (id : IdentityID) (excludeConnID : Text) : List Subscriber :=
  ((pairs (inner h id)).filter fun e => e.1 ≠ excludeConnID).map Prod.snd

variable {h : Subs} {id : IdentityID}

theorem mem_receivers {excludeConnID : Text} {s : Subscriber} :
    s ∈ h.receivers id excludeConnID ↔ ∃ connID ≠ excludeConnID, find h id connID = some s := by
  constructor
  · intro hs
    obtain ⟨⟨connID, s⟩, he, rfl⟩ := List.mem_map.mp hs
    obtain ⟨he, hne⟩ := List.mem_filter.mp he
    exact ⟨connID, of_decide_eq_true hne, mem_pairs.mp he⟩
  · rintro ⟨connID, hne, hs⟩
    exact List.mem_map.mpr ⟨(connID, s),
      List.mem_filter.mpr ⟨mem_pairs.mpr hs, decide_eq_true hne⟩, rfl⟩

theorem eventReceivers_subset (excludeConnID : Text) :
    h.eventReceivers id excludeConnID ⊆ h.receivers id excludeConnID := by
  intro s hs
  obtain ⟨⟨connID, s⟩, he, rfl⟩ := List.mem_map.mp hs
  obtain ⟨he, hkeep⟩ := List.mem_filter.mp he
  exact mem_receivers.mpr ⟨connID, (of_decide_eq_true hkeep).1, mem_pairs.mp he⟩

theorem find_subscribe (s : Subscriber) (id' : IdentityID) (connID : Text) :
    find (h.subscribe id s).2 id' connID =
      if (h.subscribe id s).1 = true ∧ id' = id ∧ connID = s.connID then some s
      else find h id' connID := by
  rw [subscribe]
  split
  next => rw [if_neg fun hs => by cases hs.1]
  next =>
    rw [find_put]
    simp

/-- Toggling event delivery changes no subscriber's channel. -/
theorem find_setEvents {connID connID' : Text} {on : Bool} {id' : IdentityID} {s : Subscriber}
    (hs : find (h.setEvents id connID on).2 id' connID' = some s) :
    ∃ s₀, find h id' connID' = some s₀ ∧ s.connID = s₀.connID ∧ s.send = s₀.send := by
  rw [setEvents] at hs
  cases hold : find h id connID with
  | none =>
      rw [hold] at hs
      exact ⟨s, hs, rfl, rfl⟩
  | some s₀ =>
      rw [hold] at hs
      rw [find_put] at hs
      split at hs
      next heq =>
        obtain ⟨rfl, rfl⟩ := heq
        cases hs
        exact ⟨s₀, hold, rfl, rfl⟩
      next => exact ⟨s, hs, rfl, rfl⟩

theorem find_unsubscribe (connID : Text) (id' : IdentityID) (connID' : Text) :
    find (h.unsubscribe id connID) id' connID' =
      if id' = id ∧ connID' = connID then none else find h id' connID' :=
  find_drop ..

end Subs

end Tactile.Relay.Hub
