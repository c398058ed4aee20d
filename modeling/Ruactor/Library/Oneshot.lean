/-!
# One-shot channels

The sender of a channel is used up when it sends, or it is dropped. Sending to a receiver that
is gone gives the value back. The receiver is ready when the sender is no more, whatever it
has sent. `OneshotChannel` is what the users of a channel call, with what they rely on;
`Channel` is the least that behaves so.
-/

universe u v

namespace Oneshot

inductive Sender (V : Type u)
  | alive
  | sent (v : V)
  | dropped
  deriving DecidableEq, Repr

inductive RecvError
  | closed
  deriving DecidableEq, Repr

end Oneshot

open Oneshot

/-- `fate` and `listening` say what has become of the two halves, and no user sees them.
`poll` is `none` while the receiver has to wait. -/
class OneshotChannel (C : Type u) (V : outParam (Type v)) where
  channel : C
  send : C → V → C × Except V Unit
  dropSender : C → C
  dropReceiver : C → C
  poll : C → Option (Except RecvError V)
  fate : C → Sender V
  listening : C → Bool
  channel_fate : fate channel = .alive
  send_heard : ∀ {c v}, listening c = true →
    fate (send c v).1 = .sent v ∧ listening (send c v).1 = true ∧ (send c v).2 = .ok ()
  send_lost : ∀ {c v}, listening c = false →
    fate (send c v).1 = .dropped ∧ listening (send c v).1 = false ∧ (send c v).2 = .error v
  dropSender_alive : ∀ {c}, fate c = .alive → fate (dropSender c) = .dropped
  dropSender_spent : ∀ {c}, fate c ≠ .alive → dropSender c = c
  dropSender_listening : ∀ c, listening (dropSender c) = listening c
  dropReceiver_fate : ∀ c, fate (dropReceiver c) = fate c
  dropReceiver_listening : ∀ c, listening (dropReceiver c) = false
  poll_alive : ∀ {c}, fate c = .alive → poll c = none
  poll_sent : ∀ {c v}, fate c = .sent v → poll c = some (.ok v)
  poll_dropped : ∀ {c}, fate c = .dropped → poll c = some (.error .closed)

namespace OneshotChannel

variable {C : Type u} {V : Type v} [OneshotChannel C V] {c : C}

theorem dropSender_gone (c : C) : fate (dropSender c) ≠ .alive := by
  by_cases halive : fate c = .alive
  · simp [dropSender_alive halive]
  · rwa [dropSender_spent halive]

theorem poll_none (h : poll c = none) : fate c = .alive := by
  cases hfate : fate c with
  | alive => rfl
  | sent v => simp [poll_sent hfate] at h
  | dropped => simp [poll_dropped hfate] at h

end OneshotChannel

namespace Oneshot

structure Channel (V : Type u) where
  sender : Sender V := .alive
  receiver : Bool := true
  deriving DecidableEq, Repr

namespace Channel

variable {V : Type u}

def send (ch : Channel V) (v : V) : Channel V × Except V Unit :=
  if ch.receiver then ({ ch with sender := .sent v }, .ok ())
  else ({ ch with sender := .dropped }, .error v)

def dropSender (ch : Channel V) : Channel V :=
  match ch.sender with
  | .alive => { ch with sender := .dropped }
  | _ => ch

def dropReceiver (ch : Channel V) : Channel V := { ch with receiver := false }

def poll (ch : Channel V) : Option (Except RecvError V) :=
  match ch.sender with
  | .alive => none
  | .sent v => some (.ok v)
  | .dropped => some (.error .closed)

instance : OneshotChannel (Channel V) V where
  channel := {}
  send := send
  dropSender := dropSender
  dropReceiver := dropReceiver
  poll := poll
  fate := sender
  listening := receiver
  channel_fate := rfl
  send_heard h := by simp [send, h]
  send_lost h := by simp [send, h]
  dropSender_alive h := by simp [dropSender, h]
  dropSender_spent h := by
    unfold dropSender
    split
    · exact absurd ‹_› h
    · rfl
  dropSender_listening ch := by
    unfold dropSender
    split <;> rfl
  dropReceiver_fate _ := rfl
  dropReceiver_listening _ := rfl
  poll_alive h := by simp [poll, h]
  poll_sent h := by simp [poll, h]
  poll_dropped h := by simp [poll, h]

end Channel

end Oneshot
