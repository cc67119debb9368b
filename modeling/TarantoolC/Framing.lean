/-
# TarantoolC.Framing — messages one behind the other on a stream.

A reader takes the first message off what has arrived, or says that it is not all there yet.  What it
says of a part of the stream it says of more of it (`Reader.more`).  So messages that are written one
behind the other are read one after the other, however the stream is cut up on its way:
`Reader.next` for a message that is taken, `Reader.idle` for a reader that is waiting.

It is about lists and a function that takes messages off them, and names no protocol.  A model of a
server uses it for the requests that reach it, in whatever portions the network delivers.
-/
import Mathlib

namespace TarantoolC.Framing

/-- A reader of single messages. -/
structure Reader (α β : Type) where
  /-- The first message and what is behind it; `none` if it is not all there. -/
  take : List α → Option (β × List α)
  nil : take [] = none
  more : ∀ {s : List α} {b : β} {r : List α}, take s = some (b, r) →
    ∀ t, take (s ++ t) = some (b, r ++ t)

namespace Reader

variable {α β γ : Type} (R : Reader α β)

/-- The stream is just this message. -/
def Writes (b : β) (w : List α) : Prop := R.take w = some (b, [])

variable {R}

/-- A reader is not confused by what is behind a message. -/
theorem Writes.take_append {b : β} {w : List α} (h : R.Writes b w) (rest : List α) :
    R.take (w ++ rest) = some (b, rest) := R.more h rest

/-- What is taken off a front part of the stream is the message. -/
theorem Writes.take_front {b c : β} {w s t r rest : List α} (h : R.Writes b w)
    (hs : s ++ t = w ++ rest) (htake : R.take s = some (c, r)) : c = b ∧ r ++ t = rest := by
  have hall := R.more htake t
  rw [hs, h.take_append] at hall
  obtain ⟨rfl, rfl⟩ := Prod.mk.inj (Option.some.inj hall)
  exact ⟨rfl, rfl⟩

variable {msg : γ → β} {wire : γ → List α} {ms : List γ}

/-- **The next message.**  `inbox` has arrived of the messages `ms`, `t` is still on its way. -/
theorem next (hms : ∀ m ∈ ms, R.Writes (msg m) (wire m)) {inbox t : List α}
    (hflow : inbox ++ t = (ms.map wire).flatten) {b : β} {r : List α}
    (htake : R.take inbox = some (b, r)) :
    ∃ m ms', ms = m :: ms' ∧ b = msg m ∧ r ++ t = (ms'.map wire).flatten := by
  cases ms with
  | nil =>
    have hnil : inbox = [] := (List.append_eq_nil_iff.mp hflow).1
    rw [hnil, R.nil] at htake
    cases htake
  | cons m ms =>
    rw [List.map_cons, List.flatten_cons] at hflow
    obtain ⟨rfl, hrest⟩ := (hms m (List.mem_cons_self ..)).take_front hflow htake
    exact ⟨m, ms, rfl, rfl, hrest⟩

/-- **A reader that waits with nothing on its way** has taken everything. -/
theorem idle (hms : ∀ m ∈ ms, R.Writes (msg m) (wire m)) {inbox : List α}
    (hflow : inbox = (ms.map wire).flatten) (hnone : R.take inbox = none) : ms = [] := by
  cases ms with
  | nil => rfl
  | cons m ms =>
    rw [hflow, List.map_cons, List.flatten_cons, (hms m (List.mem_cons_self ..)).take_append] at hnone
    cases hnone

end Reader

end TarantoolC.Framing
