import Spade.Lib.ClockCrossing
import Spade.Lib.Histories
import Spade.Stdlib.Cdc

/-!
# The synchronizer for wide values of the standard library

The entities `sender` and `receiver` of `sync_wide_impl` in `cdc.spade`, joined as `sync_wide` joins
them, and driven by two clocks whose edges come in any order.

* **The control signals** (`SyncWide.Invariant.step`): valid and its acknowledgement form a ring of
  `Spade.Lib.ClockCrossing`, in which one change at a time is on its way.
* **Only sent values** (`sync_wide_shows_sent`): the values that the receiver takes over are, in
  order and without omission, the ones that the sender captured, and the output shows the last of
  them.
-/

namespace Spade.Stdlib

variable {T : Type}

/-! ### Sender -/

inductive SyncWide.TxState (T : Type) where
  | init
  | setup (val : T)
  | hold (val : T)
  | waitRelease
  deriving DecidableEq, Repr

inductive SyncWide.RxState where
  | waitReceive
  | sendAck
  deriving DecidableEq, Repr

open SyncWide

/-- The registers of `sender`. `undef` is the register `UNDEF`, which keeps whatever it holds. -/
structure SyncWide.Sender (T : Type) where
  ack : Sync2Bool
  state : TxState T
  undef : T

namespace SyncWide.Sender

def nextState (tx : Sender T) (dataIn : T) : TxState T :=
  match tx.state with
  | .init => .setup dataIn
  | .setup data => .hold data
  | .hold data => if tx.ack.output then .waitRelease else .hold data
  | .waitRelease => if !tx.ack.output then .setup dataIn else .waitRelease

/-- `valid` and `data`. -/
def outputs (tx : Sender T) : Bool × T :=
  match tx.state with
  | .init => (false, tx.undef)
  | .setup data => (false, data)
  | .hold data => (true, data)
  | .waitRelease => (false, tx.undef)

def valid (tx : Sender T) : Bool := tx.outputs.1

def data (tx : Sender T) : T := tx.outputs.2

/-- An edge of `source_clk` at which the acknowledgement was sampled as `ack`. -/
def edge (tx : Sender T) (rst : Bool) (dataIn : T) (ack : Bool) : Sender T where
  ack := tx.ack.edge ack
  state := if rst then .init else tx.nextState dataIn
  undef := tx.undef

end SyncWide.Sender

/-! ### Receiver -/

/-- The registers of `receiver`. -/
structure SyncWide.Receiver (T : Type) where
  valid : Sync2Bool
  state : RxState
  out : T

namespace SyncWide.Receiver

def ack (rx : Receiver T) : Bool :=
  match rx.state with
  | .waitReceive => false
  | .sendAck => true

def nextState (rx : Receiver T) : RxState :=
  match rx.state with
  | .waitReceive => if rx.valid.output then .sendAck else rx.state
  | .sendAck => if !rx.valid.output then .waitReceive else rx.state

def nextOut (rx : Receiver T) (data : T) : T :=
  match rx.state, rx.valid.output with
  | .waitReceive, true => data
  | _, _ => rx.out

/-- An edge of `dest_clk` at which valid was sampled as `valid` and the data as `data`. -/
def edge (rx : Receiver T) (rst : Bool) (init : T) (valid : Bool) (data : T) : Receiver T where
  valid := rx.valid.edge valid
  state := if rst then .waitReceive else rx.nextState
  out := if rst then init else rx.nextOut data

end SyncWide.Receiver

/-! ### Both sides -/

/-- The registers of `sync_wide`. -/
structure SyncWide (T : Type) where
  tx : Sender T
  rx : Receiver T

namespace SyncWide

/-- The clocks that have an edge, and the inputs at that moment. -/
structure Event (T : Type) where
  sourceClk : Bool
  destClk : Bool
  rst : Bool
  input : T

/-- The edges of an event. Where one side samples a signal that the other side changes at the same
moment, it reads a bit as it was or as it will be, and a word as anything. -/
def Step (init : T) (s : SyncWide T) (e : Event T) (s' : SyncWide T) : Prop :=
  ∃ ack valid data,
    s'.tx = (if e.sourceClk then s.tx.edge e.rst e.input ack else s.tx) ∧
    s'.rx = (if e.destClk then s.rx.edge e.rst init valid data else s.rx) ∧
    Sampled s.rx.ack s'.rx.ack ack ∧
    Sampled s.tx.valid s'.tx.valid valid ∧
    SampledWord s.tx.data s'.tx.data data

/-- The registers with a reset take their value as soon as the reset rises. -/
def assertReset (init : T) (s : SyncWide T) : SyncWide T where
  tx := { s.tx with state := .init }
  rx := { s.rx with state := .waitReceive, out := init }

/-- Both sides have been held in reset until the synchronizers show what the other side sends. -/
def JointReset (init : T) (s : SyncWide T) : Prop :=
  ∃ s₀ h, Reaches (Step init) (assertReset init s₀) h s ∧ (∀ t ∈ h, t.event.rst = true) ∧
    s.tx.ack.Shows s.rx.ack ∧ s.rx.valid.Shows s.tx.valid

/-- The input at an edge of the source clock. -/
def offered (t : Transition (SyncWide T) (Event T)) : Option T :=
  if t.event.sourceClk then some t.event.input else none

/-- The input at an edge of the source clock at which the sender starts a transfer. -/
def captured (t : Transition (SyncWide T) (Event T)) : Option T :=
  if t.event.sourceClk then
    match t.after.tx.state with
    | .setup val => some val
    | _ => none
  else none

/-- The value that an edge of the destination clock writes to the output. -/
def latched (t : Transition (SyncWide T) (Event T)) : Option T :=
  if t.event.destClk && t.before.rx.valid.output && !t.before.rx.ack then some t.after.rx.out
  else none

/-! ### The control signals -/

/-- Valid and its acknowledgement with the registers that synchronize them. -/
def ring (s : SyncWide T) : RequestRing where
  request := s.tx.valid
  request1 := s.rx.valid.sync1
  request2 := s.rx.valid.sync2
  ack := s.rx.ack
  ack1 := s.tx.ack.sync1
  ack2 := s.tx.ack.sync2

/-- The sender is about to raise valid, or waits for its first value. -/
def TxState.Starting : TxState T → Prop
  | .init => True
  | .setup _ => True
  | .hold _ => False
  | .waitRelease => False

/-- One change at a time is on its way, and none when the sender is about to raise valid. -/
structure Invariant (s : SyncWide T) : Prop where
  settled : s.ring.Settled
  starting : s.tx.state.Starting → s.tx.ack.output = false

/-- What has been captured and not been taken over. -/
def outstanding (s : SyncWide T) : List T :=
  match s.tx.state with
  | .init => []
  | .setup d => [d]
  | .hold d => if s.rx.ack then [] else [d]
  | .waitRelease => []

theorem Sender.edge_valid {tx : Sender T} (hstarting : tx.state.Starting → tx.ack.output = false)
    (input : T) (ack : Bool) :
    (tx.edge false input ack).valid = tx.valid ∨
      (tx.edge false input ack).valid = !tx.ack.output := by
  unfold valid outputs edge nextState
  rcases hstate : tx.state with _ | d | d | _
  · exact .inl rfl
  · rw [hstate] at hstarting
    exact .inr (by rw [hstarting trivial]; rfl)
  · rcases tx.ack.output with _ | _
    · exact .inl rfl
    · exact .inr rfl
  · rcases tx.ack.output with _ | _
    · exact .inl rfl
    · exact .inl rfl

/-- The acknowledgement follows valid. -/
theorem Receiver.edge_ack (rx : Receiver T) (init : T) (valid : Bool) (data : T) :
    (rx.edge false init valid data).ack = rx.valid.output := by
  unfold ack edge nextState
  rcases hstate : rx.state with _ | _ <;> rcases rx.valid.output with _ | _ <;> simp

variable {init : T} {s s' : SyncWide T} {e : Event T}

theorem Step.ring (hstep : Step init s e s') (hrst : e.rst = false)
    (hstarting : s.tx.state.Starting → s.tx.ack.output = false) : s.ring.Step s'.ring := by
  obtain ⟨ack, valid, data, htx, hrx, hack, hvalid, -⟩ := hstep
  rw [hrst] at htx hrx
  constructor
  · by_cases hclk : e.sourceClk = true
    · rw [if_pos hclk] at htx
      refine .inl ⟨?_, ?_, ?_⟩
      · simp only [SyncWide.ring, htx]
        exact Sender.edge_valid hstarting e.input ack
      · simpa [SyncWide.ring, htx, Sender.edge, Sync2.edge] using hack
      · simp [SyncWide.ring, htx, Sender.edge, Sync2.edge]
    · rw [if_neg hclk] at htx
      exact .inr (by simp [SyncWide.ring, htx])
  · by_cases hclk : e.destClk = true
    · rw [if_pos hclk] at hrx
      refine .inl ⟨?_, ?_, ?_⟩
      · simpa [SyncWide.ring, hrx, Receiver.edge, Sync2.edge] using hvalid
      · simp [SyncWide.ring, hrx, Receiver.edge, Sync2.edge]
      · simp only [SyncWide.ring, hrx]
        exact Receiver.edge_ack s.rx init valid data
    · rw [if_neg hclk] at hrx
      exact .inr (by simp [SyncWide.ring, hrx])

theorem Step.rx_ack (hstep : Step init s e s') (hrst : e.rst = false) :
    s'.rx.ack = if e.destClk then s.rx.valid.output else s.rx.ack := by
  obtain ⟨ack, valid, data, -, hrx, -⟩ := hstep
  rw [hrst] at hrx
  rw [hrx]
  split
  · exact Receiver.edge_ack s.rx init valid data
  · rfl

theorem Step.tx_state (hstep : Step init s e s') (hrst : e.rst = false) :
    s'.tx.state = if e.sourceClk then s.tx.nextState e.input else s.tx.state := by
  obtain ⟨ack, valid, data, htx, -⟩ := hstep
  rw [htx, hrst]
  split
  · rfl
  · rfl

/-- A transfer starts only while nothing is on its way. -/
theorem Sender.idle_of_starting {tx : Sender T} {input : T}
    (hstarting : tx.state.Starting → tx.ack.output = false)
    (hnext : (tx.nextState input).Starting) : tx.valid = false ∧ tx.ack.output = false := by
  unfold nextState at hnext
  unfold valid outputs
  rcases hstate : tx.state with _ | d | d | _ <;> rw [hstate] at hstarting hnext
  · exact ⟨rfl, hstarting trivial⟩
  · exact hnext.elim
  · rcases hack : tx.ack.output with _ | _
    · rw [hack] at hnext
      exact hnext.elim
    · rw [hack] at hnext
      exact hnext.elim
  · rcases hack : tx.ack.output with _ | _
    · exact ⟨rfl, rfl⟩
    · rw [hack] at hnext
      exact hnext.elim

theorem Invariant.step (hinv : s.Invariant) (hstep : Step init s e s') (hrst : e.rst = false) :
    s'.Invariant := by
  refine ⟨hinv.settled.step (hstep.ring hrst hinv.starting), ?_⟩
  intro hstarting
  rw [hstep.tx_state hrst] at hstarting
  obtain ⟨ack, valid, data, htx, -, -⟩ := hstep
  rw [htx]
  split
  · next hclk =>
    rw [if_pos hclk] at hstarting
    obtain ⟨hvalid, hlow⟩ := Sender.idle_of_starting hinv.starting hstarting
    exact (hinv.settled.idle hvalid hlow).2.2
  · next hclk =>
    rw [if_neg hclk] at hstarting
    exact hinv.starting hstarting

/-! ### The data -/

/-- While the receiver is about to take over the data, the sender holds it. -/
theorem Invariant.held (hinv : s.Invariant) (hstep : Step init s e s') (hrst : e.rst = false)
    (hwait : s.rx.ack = false) (hvalid : s.rx.valid.output = true) :
    ∃ d, s.tx.state = .hold d ∧ s'.tx.state = .hold d := by
  obtain ⟨hrequest, hlow⟩ := hinv.settled.stands hvalid hwait
  replace hrequest : s.tx.valid = true := hrequest
  replace hlow : s.tx.ack.output = false := hlow
  rcases hstate : s.tx.state with _ | d | d | _
  · simp [Sender.valid, Sender.outputs, hstate] at hrequest
  · simp [Sender.valid, Sender.outputs, hstate] at hrequest
  · refine ⟨d, rfl, ?_⟩
    rw [hstep.tx_state hrst]
    split <;> simp [Sender.nextState, hstate, hlow]
  · simp [Sender.valid, Sender.outputs, hstate] at hrequest

/-- What the receiver takes over is what the sender holds. -/
theorem Invariant.latches (hinv : s.Invariant) (hstep : Step init s e s') (hrst : e.rst = false)
    (hclk : e.destClk = true) (hwait : s.rx.ack = false) (hvalid : s.rx.valid.output = true) :
    ∃ d, s.tx.state = .hold d ∧ s'.tx.state = .hold d ∧ s'.rx.out = d := by
  obtain ⟨d, hstate, hstate'⟩ := hinv.held hstep hrst hwait hvalid
  refine ⟨d, hstate, hstate', ?_⟩
  have hrxstate : s.rx.state = .waitReceive := by
    rcases hs : s.rx.state with _ | _ <;> simp [Receiver.ack, hs] at hwait ⊢
  obtain ⟨ack, valid, data, -, hrx, -, -, hdata⟩ := hstep
  have hdata' : data = d := by
    have hheld : s.tx.data = d := by simp [Sender.data, Sender.outputs, hstate]
    have hheld' : s'.tx.data = d := by simp [Sender.data, Sender.outputs, hstate']
    rw [hdata (hheld.trans hheld'.symm), hheld]
  simp [hrx, hclk, hrst, Receiver.edge, Receiver.nextOut, hrxstate, hvalid, hdata']

/-- The output keeps its value until the receiver takes over the next one. -/
theorem Step.out (hstep : Step init s e s') (hrst : e.rst = false) :
    s'.rx.out = (latched ⟨s, e, s'⟩).getD s.rx.out := by
  obtain ⟨ack, valid, data, -, hrx, -⟩ := hstep
  by_cases hclk : e.destClk = true
  · rw [if_pos hclk, hrst] at hrx
    rcases hstate : s.rx.state with _ | _ <;> rcases hvalid : s.rx.valid.output with _ | _ <;>
      simp [latched, hclk, hrx, Receiver.edge, Receiver.nextOut, Receiver.ack, hstate, hvalid]
  · rw [if_neg hclk] at hrx
    simp [latched, hclk, hrx]

/-- What is captured is the input at that edge. -/
theorem Step.captured_offered (hstep : Step init s e s') (hrst : e.rst = false) :
    ∀ d ∈ captured ⟨s, e, s'⟩, d ∈ offered ⟨s, e, s'⟩ := by
  intro d hd
  have hnext := hstep.tx_state hrst
  unfold captured at hd
  unfold offered
  by_cases hclk : e.sourceClk = true
  · rw [if_pos hclk] at hd hnext ⊢
    rw [Sender.nextState] at hnext
    rcases hstate : s.tx.state with _ | v | v | _ <;> rcases hack : s.tx.ack.output with _ | _ <;>
      simp_all
  · rw [if_neg hclk] at hd
    exact absurd hd (Option.not_mem_none d)

/-- A step in which the receiver does not take over a value. -/
theorem Invariant.outstanding_waits (hinv : s.Invariant) (hstep : Step init s e s')
    (hrst : e.rst = false)
    (hquiet : s.rx.ack = false → s.rx.valid.output = true → e.destClk = false) :
    s.outstanding ++ (captured ⟨s, e, s'⟩).toList = s'.outstanding := by
  have hack := hstep.rx_ack hrst
  have hnext := hstep.tx_state hrst
  rw [Sender.nextState] at hnext
  rcases hstate : s.tx.state with _ | d | d | _
  · by_cases hclk : e.sourceClk = true
    · simp [outstanding, captured, hclk, hnext, hstate]
    · simp [outstanding, captured, hclk, hnext, hstate]
  · -- nothing is on its way, so the acknowledgement stays low when valid rises
    obtain ⟨hvalid, hlow, -⟩ := hinv.settled.idle
      (by simp [ring, Sender.valid, Sender.outputs, hstate])
      (hinv.starting (by rw [hstate]; trivial))
    have hlow' : s'.rx.ack = false := by
      rw [hack]
      split
      · exact hvalid
      · exact hlow
    by_cases hclk : e.sourceClk = true
    · simp [outstanding, captured, hclk, hnext, hstate, hlow']
    · simp [outstanding, captured, hclk, hnext, hstate]
  · have hrequest : s.ring.request = true := by
      simp [ring, Sender.valid, Sender.outputs, hstate]
    rcases hrx : s.rx.ack with _ | _
    · have hlow : s.tx.ack.output = false := by
        by_contra hhigh
        rw [Bool.not_eq_false] at hhigh
        have h := hinv.settled.answered hrequest hhigh
        rw [show s.ring.ack = false from hrx] at h
        exact Bool.false_ne_true h
      have hlow' : s'.rx.ack = false := by
        rw [hack, hrx]
        split
        · next hclk =>
          by_contra hvalid
          rw [hquiet hrx (by simpa using hvalid)] at hclk
          exact Bool.false_ne_true hclk
        · rfl
      simp [outstanding, captured, hnext, hstate, hrx, hlow, hlow']
    · have hvalid := hinv.settled.acknowledged hrequest hrx
      have hhigh' : s'.rx.ack = true := by
        rw [hack, hrx]
        split
        · exact hvalid
        · rfl
      by_cases hclk : e.sourceClk = true <;> rcases hlow : s.tx.ack.output with _ | _ <;>
        simp [outstanding, captured, hclk, hnext, hstate, hrx, hlow, hhigh']
  · by_cases hclk : e.sourceClk = true <;> rcases hlow : s.tx.ack.output with _ | _ <;>
      simp [outstanding, captured, hclk, hnext, hstate, hlow]

/-- What one step captures is outstanding until a step takes it over. -/
theorem Invariant.outstanding_step (hinv : s.Invariant) (hstep : Step init s e s')
    (hrst : e.rst = false) :
    s.outstanding ++ (captured ⟨s, e, s'⟩).toList =
      (latched ⟨s, e, s'⟩).toList ++ s'.outstanding := by
  by_cases hlatch : e.destClk = true ∧ s.rx.valid.output = true ∧ s.rx.ack = false
  · obtain ⟨hclk, hvalid, hwait⟩ := hlatch
    obtain ⟨d, hstate, hstate', hout⟩ := hinv.latches hstep hrst hclk hwait hvalid
    have hack : s'.rx.ack = true := by rw [hstep.rx_ack hrst, if_pos hclk, hvalid]
    simp [captured, latched, outstanding, hclk, hvalid, hwait, hstate, hstate', hout, hack]
  · have hsilent : latched ⟨s, e, s'⟩ = none := by
      refine if_neg ?_
      simpa [and_assoc] using hlatch
    rw [hsilent, hinv.outstanding_waits hstep hrst]
    · rfl
    · intro hwait hvalid
      simpa [hwait, hvalid] using hlatch

/-! ### Runs -/

theorem JointReset.invariant (h : s.JointReset init) :
    s.Invariant ∧ s.outstanding = [] ∧ s.rx.out = init := by
  obtain ⟨s₀, resets, hreach, hrst, ⟨hack1, hack2⟩, hvalid1, hvalid2⟩ := h
  have hreset : s.tx.state = .init ∧ s.rx.state = .waitReceive ∧ s.rx.out = init := by
    refine hreach.invariant
      (I := fun s => s.tx.state = .init ∧ s.rx.state = .waitReceive ∧ s.rx.out = init)
      ⟨rfl, rfl, rfl⟩ ?_ hrst
    rintro s e s' ⟨htx, hrx, hout⟩ ⟨ack, valid, data, htx', hrx', -⟩ hhigh
    rw [htx', hrx', show e.rst = true from hhigh]
    refine ⟨?_, ?_, ?_⟩
    · split
      · rfl
      · exact htx
    · split
      · rfl
      · exact hrx
    · split
      · rfl
      · exact hout
  obtain ⟨htx, hrx, hout⟩ := hreset
  have hvalid : s.tx.valid = false := by simp [Sender.valid, Sender.outputs, htx]
  have hack : s.rx.ack = false := by simp [Receiver.ack, hrx]
  rw [hvalid] at hvalid1 hvalid2
  rw [hack] at hack1 hack2
  refine ⟨⟨?_, ?_⟩, ?_, hout⟩
  · simp [RequestRing.Settled, ring, hvalid, hack, hvalid1, hvalid2, hack1, hack2]
  · intro hstarting
    exact hack2
  · simp [outstanding, htx]

/-- **Only sent values.** After a joint reset, the output is `init` or a value that the input had at
an edge of the source clock. The values that it takes are, in order and without omission, the first
ones of those that the sender captured, which are some of the inputs at these edges, in order. -/
theorem sync_wide_shows_sent {s₀ : SyncWide T} (hreset : s₀.JointReset init)
    {h : List (Transition (SyncWide T) (Event T))} (hreach : Reaches (Step init) s₀ h s)
    (hrst : ∀ t ∈ h, t.event.rst = false) :
    (s.rx.out = init ∨ s.rx.out ∈ observed offered h) ∧
      s.rx.out = (observed latched h).getLastD init ∧
      observed latched h <+: observed captured h ∧
      (observed captured h).Sublist (observed offered h) := by
  obtain ⟨hstart, hempty, hout⟩ := hreset.invariant
  have hstep : ∀ (s : SyncWide T) (e : Event T) (s' : SyncWide T), s.Invariant →
      Step init s e s' → e.rst = false → s'.Invariant := fun _ _ _ hinv => hinv.step
  have hlast : s.rx.out = (observed latched h).getLastD s₀.rx.out :=
    hreach.last_written hstart hstep (fun _ _ _ _ hnext hlow => hnext.out hlow) hrst
  have hconserved := hreach.conservation hstart hstep hempty
    (fun _ _ _ hinv => hinv.outstanding_step) hrst
  have hsub : (observed captured h).Sublist (observed offered h) :=
    hreach.observed_sublist (fun _ _ _ hnext hlow => hnext.captured_offered hlow) hrst
  rw [hout] at hlast
  refine ⟨?_, hlast, ⟨s.outstanding, hconserved.symm⟩, hsub⟩
  rcases hlatched : observed latched h with _ | ⟨d, ds⟩
  · rw [hlatched] at hlast
    exact .inl hlast
  · refine .inr (hsub.subset ?_)
    rw [hconserved, hlast, hlatched, List.getLastD_cons]
    exact List.mem_append_left _ List.getLastD_mem_cons

/-- The registers after a joint reset. -/
def idle (init undef : T) : SyncWide T where
  tx := { ack := ⟨false, false⟩, state := .init, undef := undef }
  rx := { valid := ⟨false, false⟩, state := .waitReceive, out := init }

theorem idle_jointReset (init undef : T) : (idle init undef).JointReset init := by
  have hreach : Reaches (Step init) (assertReset init (idle init undef)) [] (idle init undef) :=
    Reaches.start
  exact ⟨idle init undef, [], hreach, fun t ht => absurd ht List.not_mem_nil, ⟨rfl, rfl⟩,
    ⟨rfl, rfl⟩⟩

/-- The first input after the reset appears on the output, the second one is skipped. -/
theorem sync_wide_shows_first :
    ∃ (s : SyncWide ℕ) (h : List (Transition (SyncWide ℕ) (Event ℕ))),
      Reaches (Step 0) (idle 0 1) h s ∧ observed offered h = [7, 8] ∧ s.rx.out = 7 ∧
      (s.rx.out = 0 ∨ s.rx.out ∈ observed offered h) := by
  let setup : SyncWide ℕ := ⟨⟨⟨false, false⟩, .setup 7, 1⟩, ⟨⟨false, false⟩, .waitReceive, 0⟩⟩
  let hold : SyncWide ℕ := ⟨⟨⟨false, false⟩, .hold 7, 1⟩, ⟨⟨true, false⟩, .waitReceive, 0⟩⟩
  let seen : SyncWide ℕ := ⟨⟨⟨false, false⟩, .hold 7, 1⟩, ⟨⟨true, true⟩, .waitReceive, 0⟩⟩
  let shown : SyncWide ℕ := ⟨⟨⟨false, false⟩, .hold 7, 1⟩, ⟨⟨true, true⟩, .sendAck, 7⟩⟩
  have hsetup : Step 0 (idle 0 1) ⟨true, false, false, 7⟩ setup :=
    ⟨false, false, 1, rfl, rfl, .inl rfl, .inl rfl, fun _ => rfl⟩
  have hhold : Step 0 setup ⟨true, true, false, 8⟩ hold :=
    ⟨false, true, 7, rfl, rfl, .inl rfl, .inr rfl, fun _ => rfl⟩
  have hseen : Step 0 hold ⟨false, true, false, 9⟩ seen :=
    ⟨false, true, 7, rfl, rfl, .inl rfl, .inl rfl, fun _ => rfl⟩
  have hshown : Step 0 seen ⟨false, true, false, 9⟩ shown :=
    ⟨false, true, 7, rfl, rfl, .inl rfl, .inl rfl, fun _ => rfl⟩
  have hreach := (((Reaches.start.next hsetup).next hhold).next hseen).next hshown
  refine ⟨_, _, hreach, rfl, rfl, ?_⟩
  exact (sync_wide_shows_sent (idle_jointReset 0 1) hreach (by simp)).1

end SyncWide

end Spade.Stdlib
