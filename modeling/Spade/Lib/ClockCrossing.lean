import Mathlib.Data.Bool.Basic
import Mathlib.Order.Basic

/-!
# Signals between two clock domains

A register may sample a signal of another domain at the moment at which it changes.

* `Sampled`: a single bit is then read as it was or as it will be.
* `SampledWord`: a word of many bits may be read as anything.
* `RequestRing`: two parties that exchange a request and an acknowledgement, each through two
  registers.
* **The four phases** (`RequestRing.Settled.step`): a change runs around the ring before the next
  one starts, so that the request stands while the other side has seen it and not yet acknowledged
  it (`RequestRing.Settled.stands`).
-/

/-- A bit that changes from `old` to `new` while it is sampled. -/
def Sampled (old new sample : Bool) : Prop := sample = old ∨ sample = new

/-- A word that changes from `old` to `new` while it is sampled. -/
def SampledWord {α : Type} (old new sample : α) : Prop := old = new → sample = old

/-- A request and an acknowledgement, with the two registers through which the other side sees
each of them. -/
structure RequestRing where
  request : Bool
  request1 : Bool
  request2 : Bool
  ack : Bool
  ack1 : Bool
  ack2 : Bool

namespace RequestRing

/-- At most one change is on its way around the ring. -/
def Settled (r : RequestRing) : Prop :=
  (r.request ≤ r.request1 ∧ r.request1 ≤ r.request2 ∧ r.request2 ≤ r.ack ∧ r.ack ≤ r.ack1 ∧
    r.ack1 ≤ r.ack2) ∨
  (r.ack2 ≤ r.ack1 ∧ r.ack1 ≤ r.ack ∧ r.ack ≤ r.request2 ∧ r.request2 ≤ r.request1 ∧
    r.request1 ≤ r.request)

/-- What an edge of the requesting side does: it changes the request only to the opposite of the
acknowledgement that it sees. -/
structure SourceEdge (r r' : RequestRing) : Prop where
  request : r'.request = r.request ∨ r'.request = !r.ack2
  ack1 : Sampled r.ack r'.ack r'.ack1
  ack2 : r'.ack2 = r.ack1

/-- What an edge of the acknowledging side does. -/
structure DestEdge (r r' : RequestRing) : Prop where
  request1 : Sampled r.request r'.request r'.request1
  request2 : r'.request2 = r.request1
  ack : r'.ack = r.request2

/-- A step in which any of the two sides has an edge, and a side without an edge stays as it is. -/
structure Step (r r' : RequestRing) : Prop where
  source : SourceEdge r r' ∨ (r'.request = r.request ∧ r'.ack1 = r.ack1 ∧ r'.ack2 = r.ack2)
  dest : DestEdge r r' ∨ (r'.request1 = r.request1 ∧ r'.request2 = r.request2 ∧ r'.ack = r.ack)

/-- **The four phases.** -/
theorem Settled.step {r r' : RequestRing} (h : r.Settled) (hstep : r.Step r') : r'.Settled := by
  obtain ⟨hsource, hdest⟩ := hstep
  unfold Settled at h ⊢
  simp only [Bool.le_iff_imp] at h ⊢
  rcases hsource with ⟨hrequest, hack1, hack2⟩ | ⟨hrequest, hack1, hack2⟩
  · unfold Sampled at hack1
    rcases hdest with ⟨hrequest1, hrequest2, hack⟩ | ⟨hrequest1, hrequest2, hack⟩
    · unfold Sampled at hrequest1
      grind
    · grind
  · rcases hdest with ⟨hrequest1, hrequest2, hack⟩ | ⟨hrequest1, hrequest2, hack⟩
    · unfold Sampled at hrequest1
      grind
    · grind

/-- A request that is seen and not yet acknowledged still stands, and its sender waits. -/
theorem Settled.stands {r : RequestRing} (h : r.Settled) (hrequest2 : r.request2 = true)
    (hack : r.ack = false) : r.request = true ∧ r.ack2 = false := by
  unfold Settled at h
  simp only [Bool.le_iff_imp] at h
  grind

/-- When the sender neither requests nor sees an acknowledgement, nothing is on its way. -/
theorem Settled.idle {r : RequestRing} (h : r.Settled) (hrequest : r.request = false)
    (hack2 : r.ack2 = false) : r.request2 = false ∧ r.ack = false ∧ r.ack1 = false := by
  unfold Settled at h
  simp only [Bool.le_iff_imp] at h
  grind

/-- An acknowledged request is seen for as long as it stands. -/
theorem Settled.acknowledged {r : RequestRing} (h : r.Settled) (hrequest : r.request = true)
    (hack : r.ack = true) : r.request2 = true := by
  unfold Settled at h
  simp only [Bool.le_iff_imp] at h
  grind

/-- A sender that requests and sees an acknowledgement sees that of its request. -/
theorem Settled.answered {r : RequestRing} (h : r.Settled) (hrequest : r.request = true)
    (hack2 : r.ack2 = true) : r.ack = true := by
  unfold Settled at h
  simp only [Bool.le_iff_imp] at h
  grind

end RequestRing
