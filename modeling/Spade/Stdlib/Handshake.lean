import Spade.Lib.ClockCrossing
import Spade.Lib.Histories
import Spade.Stdlib.Cdc

/-!
# The handshake synchronizer of the standard library

The entities `transmitter` and `receiver` of `handshake_impl` in `cdc.spade`, joined as `handshake`
joins them, and driven by two clocks whose edges come in any order.

* **The control signals** (`Handshake.Invariant.step`): valid and its acknowledgement form a ring
  of `Spade.Lib.ClockCrossing`, in which one change at a time is on its way.
* **Delivery** (`handshake_delivers`): what the receiver emits is a prefix of what was presented,
  at most one value is outstanding, and the held data does not move while it is sampled.
-/

namespace Spade.Stdlib

variable {T : Type}

inductive Handshake.TxState where
  | waitData
  | holdData
  | waitAck
  deriving DecidableEq, Repr

inductive Handshake.RxState where
  | waitValid
  | waitInvalid
  deriving DecidableEq, Repr

open Handshake

/-! ### Transmitter -/

/-- The registers of `transmitter`. -/
structure Handshake.Transmitter (T : Type) where
  ack : Sync2Bool
  state : TxState
  dataHeld : T

namespace Handshake.Transmitter

def dataValid (tx : Transmitter T) : Bool :=
  match tx.state with
  | .waitData => false
  | .holdData => false
  | .waitAck => true

def nextState (tx : Transmitter T) (data : Option T) : TxState :=
  match tx.state, data, tx.ack.output with
  | .waitData, none, _ => .waitData
  | .waitData, some _, _ => .holdData
  | .holdData, _, _ => .waitAck
  | .waitAck, _, false => .waitAck
  | .waitAck, _, true => .waitData

def nextDataHeld (tx : Transmitter T) (data : Option T) : T :=
  match data, tx.state with
  | some d, .waitData => d
  | _, _ => tx.dataHeld

/-- An edge of `clk` at which the acknowledgement was sampled as `ack`. -/
def edge (tx : Transmitter T) (rst : Bool) (data : Option T) (ack : Bool) : Transmitter T where
  ack := tx.ack.edge ack
  state := if rst then .waitData else tx.nextState data
  dataHeld := tx.nextDataHeld data

end Handshake.Transmitter

/-! ### Receiver -/

/-- The registers of `receiver`. -/
structure Handshake.Receiver (T : Type) where
  dataValid : Sync2Bool
  state : RxState
  dataOut : Option T

namespace Handshake.Receiver

def ack (rx : Receiver T) : Bool :=
  match rx.state with
  | .waitValid => false
  | .waitInvalid => true

def next (rx : Receiver T) (data : T) : RxState × Option T :=
  match rx.state, rx.dataValid.output with
  | .waitValid, false => (rx.state, none)
  | .waitValid, true => (.waitInvalid, some data)
  | .waitInvalid, true => (.waitInvalid, none)
  | .waitInvalid, false => (.waitValid, none)

/-- An edge of `clk` at which valid was sampled as `valid` and the data as `data`. -/
def edge (rx : Receiver T) (rst valid : Bool) (data : T) : Receiver T where
  dataValid := rx.dataValid.edge valid
  state := if rst then .waitValid else (rx.next data).1
  dataOut := if rst then none else (rx.next data).2

end Handshake.Receiver

/-! ### Both sides -/

/-- The registers of `handshake`. -/
structure Handshake (T : Type) where
  tx : Transmitter T
  rx : Receiver T

namespace Handshake

/-- The clocks that have an edge, and the inputs at that moment. -/
structure Event (T : Type) where
  clk1 : Bool
  clk2 : Bool
  rst : Bool
  data : Option T

/-- The edges of an event. Where one side samples a signal that the other side changes at the same
moment, it reads a bit as it was or as it will be, and a word as anything. -/
def Step (s : Handshake T) (e : Event T) (s' : Handshake T) : Prop :=
  ∃ ack valid data,
    s'.tx = (if e.clk1 then s.tx.edge e.rst e.data ack else s.tx) ∧
    s'.rx = (if e.clk2 then s.rx.edge e.rst valid data else s.rx) ∧
    Sampled s.rx.ack s'.rx.ack ack ∧
    Sampled s.tx.dataValid s'.tx.dataValid valid ∧
    SampledWord s.tx.dataHeld s'.tx.dataHeld data

/-- The registers with a reset take their value as soon as the reset rises. -/
def assertReset (s : Handshake T) : Handshake T where
  tx := { s.tx with state := .waitData }
  rx := { s.rx with state := .waitValid, dataOut := none }

/-- Both sides have been held in reset until the synchronizers show what the other side sends. -/
def JointReset (s : Handshake T) : Prop :=
  ∃ s₀ h, Reaches Step (assertReset s₀) h s ∧ (∀ t ∈ h, t.event.rst = true) ∧
    s.tx.ack.Shows s.rx.ack ∧ s.rx.dataValid.Shows s.tx.dataValid

/-- What is presented at an edge of the first clock. -/
def presented (t : Transition (Handshake T) (Event T)) : Option T :=
  if t.event.clk1 then t.event.data else none

/-- What the output shows after an edge of the second clock. -/
def received (t : Transition (Handshake T) (Event T)) : Option T :=
  if t.event.clk2 then t.after.rx.dataOut else none

/-- The reset is low, and a value is presented only while the transmitter waits for data and does
not see an acknowledgement. -/
def Pulsed (t : Transition (Handshake T) (Event T)) : Prop :=
  t.event.rst = false ∧
    ((presented t).isSome → t.before.tx.state = .waitData ∧ t.before.tx.ack.output = false)

/-! ### The control signals -/

/-- Valid and its acknowledgement with the registers that synchronize them. -/
def ring (s : Handshake T) : RequestRing where
  request := s.tx.dataValid
  request1 := s.rx.dataValid.sync1
  request2 := s.rx.dataValid.sync2
  ack := s.rx.ack
  ack1 := s.tx.ack.sync1
  ack2 := s.tx.ack.sync2

/-- One change at a time is on its way, and none when the transmitter is about to raise valid. -/
structure Invariant (s : Handshake T) : Prop where
  settled : s.ring.Settled
  hold : s.tx.state = .holdData → s.tx.ack.output = false

/-- What has been presented and not been emitted. -/
def outstanding (s : Handshake T) : List T :=
  match s.tx.state with
  | .waitData => []
  | .holdData => [s.tx.dataHeld]
  | .waitAck => if s.rx.ack then [] else [s.tx.dataHeld]

theorem Transmitter.edge_dataValid {tx : Transmitter T}
    (hhold : tx.state = .holdData → tx.ack.output = false) (data : Option T) (ack : Bool) :
    (tx.edge false data ack).dataValid = tx.dataValid ∨
      (tx.edge false data ack).dataValid = !tx.ack.output := by
  unfold dataValid edge nextState
  rcases hstate : tx.state with _ | _ | _
  · rcases data with _ | d
    · exact .inl rfl
    · exact .inl rfl
  · exact .inr (by rw [hhold hstate]; rfl)
  · rcases tx.ack.output with _ | _
    · exact .inl rfl
    · exact .inr rfl

/-- The acknowledgement follows valid. -/
theorem Receiver.edge_ack (rx : Receiver T) (valid : Bool) (data : T) :
    (rx.edge false valid data).ack = rx.dataValid.output := by
  unfold ack edge next
  rcases hstate : rx.state with _ | _ <;> rcases rx.dataValid.output with _ | _ <;> simp

theorem Step.ring {s s' : Handshake T} {e : Event T} (hstep : Step s e s') (hrst : e.rst = false)
    (hhold : s.tx.state = .holdData → s.tx.ack.output = false) : s.ring.Step s'.ring := by
  obtain ⟨ack, valid, data, htx, hrx, hack, hvalid, -⟩ := hstep
  rw [hrst] at htx hrx
  constructor
  · by_cases hclk : e.clk1 = true
    · rw [if_pos hclk] at htx
      refine .inl ⟨?_, ?_, ?_⟩
      · simp only [Handshake.ring, htx]
        exact Transmitter.edge_dataValid hhold e.data ack
      · simpa [Handshake.ring, htx, Transmitter.edge, Sync2.edge] using hack
      · simp [Handshake.ring, htx, Transmitter.edge, Sync2.edge]
    · rw [if_neg hclk] at htx
      exact .inr (by simp [Handshake.ring, htx])
  · by_cases hclk : e.clk2 = true
    · rw [if_pos hclk] at hrx
      refine .inl ⟨?_, ?_, ?_⟩
      · simpa [Handshake.ring, hrx, Receiver.edge, Sync2.edge] using hvalid
      · simp [Handshake.ring, hrx, Receiver.edge, Sync2.edge]
      · simp only [Handshake.ring, hrx]
        exact Receiver.edge_ack s.rx valid data
    · rw [if_neg hclk] at hrx
      exact .inr (by simp [Handshake.ring, hrx])

theorem Transmitter.presented_of_holdData {tx : Transmitter T} {data : Option T}
    (h : tx.nextState data = .holdData) : tx.state = .waitData ∧ data.isSome := by
  unfold nextState at h
  rcases hstate : tx.state with _ | _ | _ <;> rcases data with _ | d <;>
    rcases hack : tx.ack.output with _ | _ <;> simp_all

/-- The transmitter reaches the state in which it holds new data only while nothing is on its
way. -/
theorem Invariant.step {s s' : Handshake T} {e : Event T} (hinv : s.Invariant)
    (hstep : Step s e s') (hpulsed : Pulsed ⟨s, e, s'⟩) : s'.Invariant := by
  obtain ⟨hrst, hpresented⟩ := hpulsed
  refine ⟨hinv.settled.step (hstep.ring hrst hinv.hold), ?_⟩
  intro hhold
  obtain ⟨ack, valid, data, htx, -, -⟩ := hstep
  by_cases hclk : e.clk1 = true
  · rw [if_pos hclk] at htx
    have hnext : s.tx.nextState e.data = .holdData := by
      simpa [htx, Transmitter.edge, show e.rst = false from hrst] using hhold
    obtain ⟨hwait, hdata⟩ := Transmitter.presented_of_holdData hnext
    have hlow := (hpresented (by simpa [presented, hclk] using hdata)).2
    have hidle := hinv.settled.idle (by simp [ring, Transmitter.dataValid, hwait]) hlow
    rw [htx]
    exact hidle.2.2
  · rw [if_neg hclk] at htx
    rw [htx] at hhold ⊢
    exact hinv.hold hhold

/-! ### The data -/

/-- While the receiver is about to sample the data, the transmitter holds it. -/
theorem Invariant.held {s s' : Handshake T} {e : Event T} (hinv : s.Invariant)
    (hstep : Step s e s') (hwait : s.rx.state = .waitValid)
    (hvalid : s.rx.dataValid.output = true) :
    s.tx.state = .waitAck ∧ s.tx.ack.output = false ∧ s'.tx.dataHeld = s.tx.dataHeld := by
  obtain ⟨hrequest, hack⟩ := hinv.settled.stands hvalid (by simp [ring, Receiver.ack, hwait])
  have hstate : s.tx.state = .waitAck := by
    rcases hs : s.tx.state with _ | _ | _ <;> simp [ring, Transmitter.dataValid, hs] at hrequest ⊢
  refine ⟨hstate, hack, ?_⟩
  obtain ⟨ack, valid, data, htx, -⟩ := hstep
  rw [htx]
  split
  · rcases hd : e.data with _ | d <;> simp [Transmitter.edge, Transmitter.nextDataHeld, hstate]
  · rfl

theorem Step.rx_ack {s s' : Handshake T} {e : Event T} (hstep : Step s e s')
    (hrst : e.rst = false) :
    s'.rx.ack = if e.clk2 then s.rx.dataValid.output else s.rx.ack := by
  obtain ⟨ack, valid, data, -, hrx, -⟩ := hstep
  rw [hrst] at hrx
  rw [hrx]
  split
  · exact Receiver.edge_ack s.rx valid data
  · rfl

theorem Pulsed.silent {s s' : Handshake T} {e : Event T} (h : Pulsed ⟨s, e, s'⟩)
    (hstate : s.tx.state ≠ .waitData) : presented ⟨s, e, s'⟩ = none := by
  by_contra hsome
  exact hstate (h.2 (Option.isSome_iff_ne_none.mpr hsome)).1

/-- A step in which the receiver does not emit. -/
theorem Invariant.outstanding_waits {s s' : Handshake T} {e : Event T} (hinv : s.Invariant)
    (hstep : Step s e s') (hpulsed : Pulsed ⟨s, e, s'⟩)
    (hquiet : s.rx.state = .waitValid → s.rx.dataValid.output = true → e.clk2 = false) :
    s.outstanding ++ (presented ⟨s, e, s'⟩).toList = s'.outstanding := by
  have hrst : e.rst = false := hpulsed.1
  have hack := hstep.rx_ack hrst
  obtain ⟨ack, valid, data, htx, -⟩ := hstep
  rw [hrst] at htx
  rcases hstate : s.tx.state with _ | _ | _
  · by_cases hclk : e.clk1 = true
    · rw [if_pos hclk] at htx
      rcases hdata : e.data with _ | d <;>
        simp [outstanding, presented, hclk, htx, hdata, hstate, Transmitter.edge,
          Transmitter.nextState, Transmitter.nextDataHeld]
    · rw [if_neg hclk] at htx
      simp [outstanding, presented, hclk, htx, hstate]
  · rw [hpulsed.silent (by rw [hstate]; nofun)]
    -- nothing is on its way, so the acknowledgement stays low when valid rises
    obtain ⟨hvalid, hlow, -⟩ := hinv.settled.idle (by simp [ring, Transmitter.dataValid, hstate])
      (hinv.hold hstate)
    have hlow' : s'.rx.ack = false := by
      rw [hack]
      split
      · exact hvalid
      · exact hlow
    by_cases hclk : e.clk1 = true
    · rw [if_pos hclk] at htx
      rcases hdata : e.data with _ | d <;>
        simp [outstanding, htx, hstate, hlow', Transmitter.edge, Transmitter.nextState,
          Transmitter.nextDataHeld]
    · rw [if_neg hclk] at htx
      simp [outstanding, htx, hstate]
  · rw [hpulsed.silent (by rw [hstate]; nofun)]
    have hrequest : s.ring.request = true := by simp [ring, Transmitter.dataValid, hstate]
    rcases hrx : s.rx.ack with _ | _
    · have hwait : s.rx.state = .waitValid := by
        rcases hs : s.rx.state with _ | _ <;> simp [Receiver.ack, hs] at hrx ⊢
      have hlow : s.tx.ack.output = false := by
        by_contra hhigh
        rw [Bool.not_eq_false] at hhigh
        have h := hinv.settled.answered hrequest hhigh
        rw [show s.ring.ack = false from hrx] at h
        exact Bool.false_ne_true h
      have hlow' : s'.rx.ack = false := by
        rw [hack, hrx]
        split
        · next hclk =>
          by_contra hvalid
          rw [hquiet hwait (by simpa using hvalid)] at hclk
          exact Bool.false_ne_true hclk
        · rfl
      have hstate' : s'.tx.state = .waitAck := by
        rw [htx]
        split <;> simp [Transmitter.edge, Transmitter.nextState, hstate, hlow]
      have hheld' : s'.tx.dataHeld = s.tx.dataHeld := by
        rw [htx]
        split
        · rcases e.data with _ | d <;> simp [Transmitter.edge, Transmitter.nextDataHeld, hstate]
        · rfl
      simp [outstanding, hstate, hstate', hrx, hlow', hheld']
    · have hvalid := hinv.settled.acknowledged hrequest hrx
      have hhigh' : s'.rx.ack = true := by
        rw [hack, hrx]
        split
        · exact hvalid
        · rfl
      rcases hstate' : s'.tx.state with _ | _ | _
      · simp [outstanding, hstate, hstate', hrx]
      · rw [htx] at hstate'
        by_cases hclk : e.clk1 = true
        · rw [if_pos hclk] at hstate'
          have h := (Transmitter.presented_of_holdData hstate').1
          rw [hstate] at h
          exact TxState.noConfusion h
        · rw [if_neg hclk, hstate] at hstate'
          exact TxState.noConfusion hstate'
      · simp [outstanding, hstate, hstate', hrx, hhigh']

/-- What one step presents is outstanding until a step emits it. -/
theorem Invariant.outstanding_step {s s' : Handshake T} {e : Event T} (hinv : s.Invariant)
    (hstep : Step s e s') (hpulsed : Pulsed ⟨s, e, s'⟩) :
    s.outstanding ++ (presented ⟨s, e, s'⟩).toList =
      (received ⟨s, e, s'⟩).toList ++ s'.outstanding := by
  have hrst : e.rst = false := hpulsed.1
  by_cases hemit : e.clk2 = true ∧ s.rx.state = .waitValid ∧ s.rx.dataValid.output = true
  · obtain ⟨hclk, hwait, hvalid⟩ := hemit
    obtain ⟨hstate, hlow, hheld⟩ := hinv.held hstep hwait hvalid
    have hack : s'.rx.ack = true := by rw [hstep.rx_ack hrst, if_pos hclk, hvalid]
    obtain ⟨ack, valid, data, htx, hrx, -, -, hdata⟩ := hstep
    have hstate' : s'.tx.state = .waitAck := by
      rw [htx, hrst]
      split <;> simp [Transmitter.edge, Transmitter.nextState, hstate, hlow]
    have hout : s'.rx.dataOut = some s.tx.dataHeld := by
      simp [hrx, hrst, hclk, Receiver.edge, Receiver.next, hwait, hvalid, hdata hheld.symm]
    have hlow' : s.rx.ack = false := by simp [Receiver.ack, hwait]
    rw [hpulsed.silent (by rw [hstate]; nofun)]
    simp [received, hclk, hout, outstanding, hstate, hstate', hack, hlow']
  · have hsilent : received ⟨s, e, s'⟩ = none := by
      obtain ⟨ack, valid, data, -, hrx, -⟩ := hstep
      unfold received
      split
      · next hclk =>
        rw [if_pos hclk, hrst] at hrx
        rcases hwait : s.rx.state with _ | _ <;>
          rcases hvalid : s.rx.dataValid.output with _ | _ <;>
          simp_all [Receiver.edge, Receiver.next]
      · rfl
    rw [hsilent, hinv.outstanding_waits hstep hpulsed]
    · rfl
    · intro hwait hvalid
      simpa [hwait, hvalid] using hemit

/-! ### Runs -/

theorem JointReset.invariant {s : Handshake T} (h : s.JointReset) :
    s.Invariant ∧ s.outstanding = [] := by
  obtain ⟨s₀, resets, hreach, hrst, ⟨hack1, hack2⟩, hvalid1, hvalid2⟩ := h
  have hreset : s.tx.state = .waitData ∧ s.rx.state = .waitValid := by
    refine hreach.invariant (I := fun s => s.tx.state = .waitData ∧ s.rx.state = .waitValid)
      ⟨rfl, rfl⟩ ?_ hrst
    rintro s e s' ⟨htx, hrx⟩ ⟨ack, valid, data, htx', hrx', -⟩ hhigh
    constructor
    · rw [htx', show e.rst = true from hhigh]
      split
      · rfl
      · exact htx
    · rw [hrx', show e.rst = true from hhigh]
      split
      · rfl
      · exact hrx
  obtain ⟨htx, hrx⟩ := hreset
  have hvalid : s.tx.dataValid = false := by simp [Transmitter.dataValid, htx]
  have hack : s.rx.ack = false := by simp [Receiver.ack, hrx]
  rw [hvalid] at hvalid1 hvalid2
  rw [hack] at hack1 hack2
  refine ⟨⟨?_, ?_⟩, ?_⟩
  · simp [RequestRing.Settled, ring, hvalid, hack, hvalid1, hvalid2, hack1, hack2]
  · intro hhold
    exact hack2
  · simp [outstanding, htx]

/-- **Delivery.** After a joint reset, and while values are presented only in the cycles in which
the transmitter waits for data and does not see an acknowledgement: the values on the output are a
prefix of the presented ones, at most one presented value is outstanding, and the held data does
not change from the edge at which the receiver sees valid to the edge at which it samples the
data. -/
theorem handshake_delivers {s₀ s : Handshake T} (hreset : s₀.JointReset)
    {h : List (Transition (Handshake T) (Event T))} (hreach : Reaches Step s₀ h s)
    (hpulsed : ∀ t ∈ h, Pulsed t) :
    observed received h <+: observed presented h ∧
      (observed presented h).length ≤ (observed received h).length + 1 ∧
      ∀ e s', Step s e s' → s.rx.state = .waitValid → s.rx.dataValid.output = true →
        s'.tx.dataHeld = s.tx.dataHeld := by
  obtain ⟨hstart, hempty⟩ := hreset.invariant
  have hconserved := hreach.conservation hstart (fun _ _ _ hinv => hinv.step) hempty
    (fun _ _ _ hinv => hinv.outstanding_step) hpulsed
  refine ⟨⟨s.outstanding, hconserved.symm⟩, ?_, ?_⟩
  · rw [hconserved, List.length_append, Nat.add_le_add_iff_left]
    unfold outstanding
    split
    · exact Nat.zero_le 1
    · exact Nat.le_refl 1
    · split
      · exact Nat.zero_le 1
      · exact Nat.le_refl 1
  · intro e s' hstep hwait hvalid
    have hinv := hreach.invariant hstart (fun _ _ _ hinv => hinv.step) hpulsed
    exact (hinv.held hstep hwait hvalid).2.2

/-- The registers after a joint reset. -/
def idle (d : T) : Handshake T where
  tx := { ack := ⟨false, false⟩, state := .waitData, dataHeld := d }
  rx := { dataValid := ⟨false, false⟩, state := .waitValid, dataOut := none }

theorem idle_jointReset (d : T) : (idle d).JointReset := by
  have hreach : Reaches Step (assertReset (idle d)) [] (idle d) := Reaches.start
  exact ⟨idle d, [], hreach, fun t ht => absurd ht List.not_mem_nil, ⟨rfl, rfl⟩, rfl, rfl⟩

/-- A pulse that has been presented, and is emitted after the last step. -/
theorem handshake_delivers_pulse :
    ∃ (s₀ s : Handshake ℕ) (h : List (Transition (Handshake ℕ) (Event ℕ))),
      Reaches Step s₀ h s ∧ observed presented h = [7] ∧ observed received h = [7] ∧
      observed received h <+: observed presented h := by
  let held : Handshake ℕ := ⟨⟨⟨false, false⟩, .holdData, 7⟩, ⟨⟨false, false⟩, .waitValid, none⟩⟩
  let raised : Handshake ℕ := ⟨⟨⟨false, false⟩, .waitAck, 7⟩, ⟨⟨true, false⟩, .waitValid, none⟩⟩
  let seen : Handshake ℕ := ⟨⟨⟨false, false⟩, .waitAck, 7⟩, ⟨⟨true, true⟩, .waitValid, none⟩⟩
  let emitted : Handshake ℕ :=
    ⟨⟨⟨false, false⟩, .waitAck, 7⟩, ⟨⟨true, true⟩, .waitInvalid, some 7⟩⟩
  have hheld : Step (idle 0) ⟨true, true, false, some 7⟩ held :=
    ⟨false, false, 0, rfl, rfl, .inl rfl, .inl rfl, fun _ => rfl⟩
  have hraised : Step held ⟨true, true, false, none⟩ raised :=
    ⟨false, true, 7, rfl, rfl, .inl rfl, .inr rfl, fun _ => rfl⟩
  have hseen : Step raised ⟨false, true, false, none⟩ seen :=
    ⟨false, true, 7, rfl, rfl, .inl rfl, .inl rfl, fun _ => rfl⟩
  have hemitted : Step seen ⟨true, true, false, none⟩ emitted :=
    ⟨false, true, 7, rfl, rfl, .inl rfl, .inl rfl, fun _ => rfl⟩
  have hreach := (((Reaches.start.next hheld).next hraised).next hseen).next hemitted
  refine ⟨_, _, _, hreach, rfl, rfl, ?_⟩
  refine (handshake_delivers (idle_jointReset 0) hreach ?_).1
  simp [Pulsed, presented, idle, Sync2.output]

end Handshake

end Spade.Stdlib
