import Mathlib.Data.List.Induction
import Defcoin.Net.Segmentation

/-! # One conversation, one message start

  A connection on which bytes arrive and messages are pushed in any order. The socket is closed when
  `ReceiveMsgBytes` gives up, and nothing is sent or received on it afterwards.
-/

namespace Defcoin.Net

open ByteCodec ChunkedInput List Net.Stream Net.Frame

/-! ### The connection -/

inductive Event where
  /-- bytes from the socket -/
  | receive (pch : Bytes)
  /-- a message for the peer -/
  | push (msg : CSerializedNetMsg)

structure Connection where
  node : CNode
  hSocket : Bool

namespace Connection

def new (net : Network) (use_legacy_outbound_magic : Bool) : Connection :=
  { node := .new net use_legacy_outbound_magic, hSocket := true }

/-- `ReceiveMsgBytes` as `SocketHandler` calls it, and `PushMessage`. -/
def step (net : Network) (c : Connection) : Event → Option Connection
  | .receive pch =>
    if c.hSocket then
      -- `CloseSocketDisconnect` when the peer should be disconnected from
      (c.node.receiveMsgBytes net pch).map fun (n, kept) => { c with node := n, hSocket := kept }
    else some c
  -- `SocketSendData` sends what is queued, but nothing on a closed socket
  | .push msg => some { c with node := c.node.pushMessage net msg }

def run (net : Network) (c : Connection) (events : List Event) : Option Connection :=
  events.foldlM (step net) c

end Connection

def received (events : List Event) : Bytes :=
  events.flatMap fun
    | .receive pch => pch
    | .push _ => []

def pushed (events : List Event) : List CSerializedNetMsg :=
  events.flatMap fun
    | .receive _ => []
    | .push msg => [msg]

/-! ### The selection of a stream -/

section Selection
variable {net : Network}

def Network.Accepts (net : Network) (start : Bytes) : Prop :=
  start = net.start false ∨ (net.acceptLegacyMagic = true ∧ start = net.start true)

theorem select_of_selected {legacy : Bool} {hb : Bytes} {choice : Option Bool}
    (h : select net (some legacy) hb = some choice) : choice = some legacy := by
  unfold select at h
  dsimp only at h
  split at h
  · exact (Option.some.inj h).symm
  · cases h

theorem select_accepted {hb : Bytes} (h : net.Accepts hb) :
    ∃ legacy, select net none hb = some (some legacy) ∧ net.start legacy = hb := by
  have hlen : hb.length = MESSAGE_START_SIZE := by
    rcases h with rfl | ⟨_, rfl⟩
    · exact net.length_start false
    · exact net.length_start true
  have haccepted : ¬(!matchesStart (net.start false) hb &&
      !(net.acceptLegacyMagic && matchesStart (net.start true) hb)) = true := by
    rcases h with rfl | ⟨hon, rfl⟩
    · simp [matchesStart]
    · simp [matchesStart, hon]
  have hselect : select net none hb = some (some !matchesStart (net.start false) hb) := by
    unfold select
    rw [if_neg haccepted, if_pos (Nat.le_of_eq hlen.symm)]
  obtain ⟨legacy, hlegacy, hstart⟩ := select_start (Nat.le_of_eq hlen.symm) hselect
  refine ⟨legacy, by rw [hselect, hlegacy], ?_⟩
  rw [← hstart, ← hlen, take_length]

theorem select_not_legacy (hoff : net.acceptLegacyMagic = false) {choice choice' : Option Bool} {hb : Bytes}
    (h : select net choice hb = some choice') (hchoice : choice ≠ some true) : choice' ≠ some true := by
  rcases choice with _ | _
  · unfold select at h
    dsimp only at h
    rw [hoff] at h
    split at h
    · cases h
    · next hours =>
      split at h
      · cases h
        simpa using hours
      · cases h
        exact fun hnone => nomatch hnone
  · rw [select_of_selected h]
    exact hchoice

namespace Stream

theorem step_selected (net : Network) (s : Stream) (b : UInt8) :
    (s.step net b).selected = s.selected ∨
      ∃ hb choice, select net s.selected hb = some choice ∧ (s.step net b).selected = choice := by
  have hdata : ∀ (s : Stream) header payload, (s.afterData header payload).selected = s.selected := by
    intro s header payload
    unfold afterData
    split <;> rfl
  unfold step
  split
  · next hb _ =>
    unfold afterHeader
    split
    · exact Or.inl rfl
    · next choice hselect =>
      refine Or.inr ⟨_, choice, hselect, ?_⟩
      split
      · rfl
      · split
        · rfl
        · exact hdata _ _ _
  · exact Or.inl (hdata _ _ _)
  · exact Or.inl rfl

theorem foldl_selection {P : Option Bool → Prop}
    (hP : ∀ {choice hb choice'}, P choice → select net choice hb = some choice' → P choice') {s : Stream}
    (h : P s.selected) (bytes : Bytes) : P (bytes.foldl (step net) s).selected := by
  induction bytes generalizing s with
  | nil => exact h
  | cons b bytes ih =>
    apply ih
    rcases step_selected net s b with hsame | ⟨hb, choice, hselect, hstep⟩
    · rwa [hsame]
    · rw [hstep]
      exact hP h hselect

theorem foldl_selected {s : Stream} {legacy : Bool} (h : s.selected = some legacy) (bytes : Bytes) :
    (bytes.foldl (step net) s).selected = some legacy :=
  foldl_selection (P := (· = some legacy)) (fun heq hselect => select_of_selected (heq ▸ hselect)) h bytes

theorem run_accepted {bytes start : Bytes} (haccepts : net.Accepts start)
    (htake : bytes.take MESSAGE_START_SIZE = start) :
    ∃ legacy, (run net bytes).selected = some legacy ∧ net.start legacy = start := by
  obtain ⟨legacy, hselect, hstart⟩ := select_accepted haccepts
  have hlen : start.length = MESSAGE_START_SIZE := by rw [← hstart, net.length_start]
  have hfirst : start.foldl (step net) new = new.afterHeader net start := by
    have hempty : new.phase = .header [] := rfl
    refine foldl_header hempty (ne_nil_of_length_pos ?_) ?_
    · rw [hlen]
      decide
    · rw [hlen]
      decide
  have hselected : (new.afterHeader net start).selected = some legacy := by
    unfold afterHeader
    rw [show new.selected = none from rfl, hselect]
    dsimp only
    rw [if_pos (by rw [hlen]; decide)]
  refine ⟨legacy, ?_, hstart⟩
  rw [run, ← take_append_drop MESSAGE_START_SIZE bytes, htake, foldl_append, hfirst]
  exact foldl_selected hselected _

end Stream

end Selection

/-! ### The frames of a stream -/

def Frame.bytes (f : Frame) : Bytes := f.header ++ f.payload

/-- A frame with a message start, of an acceptable size. -/
structure Frame.Fits (start : Bytes) (f : Frame) : Prop where
  length : f.header.length = HEADER_SIZE
  start : f.header.take MESSAGE_START_SIZE = start
  size : (decodeHeader f.header).nMessageSize = f.payload.length
  bounded : f.payload.length ≤ MAX_PROTOCOL_MESSAGE_LENGTH

section Frames
variable {net : Network}

/-- The bytes behind the last frame, and what is known about them. -/
def Phase.Pending (net : Network) (choice : Option Bool) : Phase → Bytes → Prop
  | .header hb, rest => rest = hb ∧ hb.length < HEADER_SIZE
  | .data hb payload, rest => rest = hb ++ payload ∧
    ∃ legacy, choice = some legacy ∧ hb.length = HEADER_SIZE ∧
      hb.take MESSAGE_START_SIZE = net.start legacy ∧
      payload.length < (decodeHeader hb).nMessageSize ∧
      (decodeHeader hb).nMessageSize ≤ MAX_PROTOCOL_MESSAGE_LENGTH
  | .closed, _ => True

/-- The bytes so far are the frames with their bytes, and every frame begins as selected. -/
structure Framed (net : Network) (bytes : Bytes) (s : Stream) : Prop where
  pending : ∃ rest, bytes = s.frames.flatMap Frame.bytes ++ rest ∧ s.phase.Pending net s.selected rest
  frames : ∀ f ∈ s.frames, ∃ legacy, s.selected = some legacy ∧ f.Fits (net.start legacy)

variable {bytes start : Bytes} {s : Stream} {legacy : Bool}

theorem framed_afterData {header payload : Bytes}
    (hframes : ∀ f ∈ s.frames, ∃ legacy, s.selected = some legacy ∧ f.Fits (net.start legacy))
    (hsel : s.selected = some legacy) (hlen : header.length = HEADER_SIZE)
    (hstart : header.take MESSAGE_START_SIZE = net.start legacy)
    (hle : payload.length ≤ (decodeHeader header).nMessageSize)
    (hmax : (decodeHeader header).nMessageSize ≤ MAX_PROTOCOL_MESSAGE_LENGTH) :
    Framed net (s.frames.flatMap Frame.bytes ++ (header ++ payload)) (s.afterData header payload) := by
  unfold afterData
  by_cases hfull : payload.length = (decodeHeader header).nMessageSize
  · rw [if_pos hfull]
    constructor
    · refine ⟨[], ?_, rfl, by decide⟩
      simp [Frame.bytes]
    · intro f hf
      rcases mem_append.mp hf with hf | hf
      · exact hframes f hf
      · rw [mem_singleton] at hf
        subst hf
        exact ⟨legacy, hsel, hlen, hstart, hfull.symm, hfull ▸ hmax⟩
  · rw [if_neg hfull]
    exact ⟨⟨_, rfl, rfl, legacy, hsel, hlen, hstart, by omega, hmax⟩, hframes⟩

theorem framed_step (h : Framed net bytes s) (b : UInt8) : Framed net (bytes ++ [b]) (s.step net b) := by
  obtain ⟨⟨rest, rfl, hrest⟩, hframes⟩ := h
  rw [append_assoc]
  unfold step
  rcases hs : s.phase with hb | ⟨header, _⟩ | _
  · rw [hs] at hrest
    obtain ⟨rfl, hlt⟩ := hrest
    dsimp only
    unfold afterHeader
    have hlen : (rest ++ [b]).length = rest.length + 1 := by rw [length_append, length_singleton]
    rcases hselect : select net s.selected (rest ++ [b]) with _ | choice
    -- without an accepted start nothing more is read; a choice made before stays
    · exact ⟨⟨_, rfl, trivial⟩, hframes⟩
    · have hkept : ∀ f ∈ s.frames, ∃ legacy, choice = some legacy ∧ f.Fits (net.start legacy) := by
        intro f hf
        obtain ⟨legacy, hlegacy, hfits⟩ := hframes f hf
        rw [hlegacy] at hselect
        exact ⟨legacy, select_of_selected hselect, hfits⟩
      dsimp only
      by_cases hshort : (rest ++ [b]).length < HEADER_SIZE
      · rw [if_pos hshort]
        exact ⟨⟨_, rfl, rfl, hshort⟩, hkept⟩
      · rw [if_neg hshort]
        have hfull : (rest ++ [b]).length = HEADER_SIZE := by omega
        by_cases hbig : (decodeHeader (rest ++ [b])).nMessageSize > MAX_PROTOCOL_MESSAGE_LENGTH
        · rw [if_pos hbig]
          exact ⟨⟨_, rfl, trivial⟩, hkept⟩
        · rw [if_neg hbig]
          obtain ⟨legacy, hlegacy, hstart⟩ := select_start
            (show MESSAGE_START_SIZE ≤ (rest ++ [b]).length by rw [hfull]; decide) hselect
          have hdone : Framed net (s.frames.flatMap bytes ++ (rest ++ [b] ++ []))
              ({ s with selected := choice }.afterData (rest ++ [b]) []) :=
            framed_afterData (s := { s with selected := choice }) hkept hlegacy hfull hstart (Nat.zero_le _)
              (by omega)
          rwa [append_nil] at hdone
  · rw [hs] at hrest
    obtain ⟨rfl, legacy, hlegacy, hlen, hstart, hlt, hmax⟩ := hrest
    rw [append_assoc]
    refine framed_afterData hframes hlegacy hlen hstart ?_ hmax
    rw [length_append, length_singleton]
    omega
  · exact ⟨⟨_, rfl, by rw [hs]; trivial⟩, hframes⟩

theorem framed_run (net : Network) (bytes : Bytes) : Framed net bytes (run net bytes) := by
  induction bytes using List.reverseRecOn with
  | nil => exact ⟨⟨[], rfl, rfl, by decide⟩, fun f hf => nomatch hf⟩
  | append_singleton bytes b ih =>
    have hstep := framed_step ih b
    rwa [run, foldl_append]

/-! ### A header with another start -/

theorem matchesStart_of_take {hb : Bytes} (hlen : start.length = MESSAGE_START_SIZE)
    (hlong : MESSAGE_START_SIZE ≤ hb.length) :
    matchesStart start hb = decide (hb.take MESSAGE_START_SIZE = start) := by
  unfold matchesStart
  rw [Nat.min_eq_right hlong, ← hlen, take_length, Bool.eq_iff_iff, beq_iff_eq, decide_eq_true_iff]

theorem foldl_frame {f : Frame} (hs : s.phase = .header []) (hf : f.Fits (net.start legacy))
    (hsel : s.selected = some legacy ∨ (s.selected = none ∧ select net none (net.start legacy) = some (some legacy))) :
    f.bytes.foldl (step net) s =
      { phase := .header [], selected := some legacy, frames := s.frames ++ [f] } := by
  have hlong : MESSAGE_START_SIZE ≤ f.header.length := by
    rw [hf.length]
    decide
  have hselected : select net (some legacy) f.header = some (some legacy) := by
    unfold select
    dsimp only
    rw [matchesStart_of_take (net.length_start legacy) hlong, if_pos (by simp [hf.start])]
  have hselect : select net s.selected f.header = some (some legacy) := by
    rcases hsel with hsome | ⟨hnone, hfirst⟩
    · rw [hsome, hselected]
    · have hrest := (select_append_some (f.header.drop MESSAGE_START_SIZE) hfirst).1
      rw [← hf.start, take_append_drop, hselected] at hrest
      rw [hnone, ← hrest]
  have hheader : f.header.foldl (step net) s =
      { s with selected := some legacy }.afterData f.header [] := by
    have hne : f.header ≠ [] := ne_nil_of_length_pos (by rw [hf.length]; decide)
    rw [foldl_header hs hne (by rw [hf.length]; decide), nil_append]
    unfold afterHeader
    have hbounded := hf.bounded
    rw [hselect]
    dsimp only
    rw [if_neg (by rw [hf.length]; decide), if_neg (by rw [hf.size]; omega)]
  rw [bytes, foldl_append, hheader]
  rcases hpayload : f.payload with _ | ⟨_, payload⟩
  · unfold afterData
    rw [foldl_nil, if_pos (by rw [hf.size, hpayload]), ← hpayload]
  · have hmore : { s with selected := some legacy }.afterData f.header [] =
        { s with phase := .data f.header [], selected := some legacy } := by
      unfold afterData
      rw [if_neg]
      rw [hf.size, hpayload]
      exact Nat.zero_ne_add_one _
    have hphase : { s with phase := .data f.header [], selected := some legacy }.phase =
        .data f.header [] := rfl
    rw [hmore, ← hpayload, foldl_data hphase (by rw [hpayload]; exact cons_ne_nil _ _)
      (by rw [hf.size, length_nil, Nat.zero_add]), nil_append]
    unfold afterData
    rw [if_pos hf.size.symm]

theorem run_frames (hselect : select net none start = some (some legacy)) (hstart : net.start legacy = start)
    {frames : List Frame} (hne : frames ≠ []) (hframes : ∀ f ∈ frames, f.Fits start) :
    run net (frames.flatMap Frame.bytes) =
      { phase := .header [], selected := some legacy, frames } := by
  subst hstart
  induction frames using List.reverseRecOn with
  | nil => exact absurd rfl hne
  | append_singleton frames f ih =>
    have hf := hframes f (by simp)
    rw [flatMap_append, flatMap_singleton, run, foldl_append, ← run]
    rcases frames with _ | ⟨_, frames⟩
    · exact foldl_frame rfl hf (Or.inr ⟨rfl, hselect⟩)
    · rw [ih (cons_ne_nil _ _) fun g hg => hframes g (mem_append_left _ hg)]
      exact foldl_frame rfl hf (Or.inl rfl)

theorem foldl_other_start (hs : s.phase = .header []) (hsel : s.selected = some legacy)
    (hlong : MESSAGE_START_SIZE ≤ bytes.length) (hother : bytes.take MESSAGE_START_SIZE ≠ net.start legacy) :
    bytes.foldl (step net) s = { s with phase := .closed } := by
  have hlen : (bytes.take MESSAGE_START_SIZE).length = MESSAGE_START_SIZE := by
    rw [length_take]
    omega
  have hrefused : select net s.selected (bytes.take MESSAGE_START_SIZE) = none := by
    rw [hsel]
    unfold select
    dsimp only
    rw [matchesStart_of_take (net.length_start legacy) (Nat.le_of_eq hlen.symm), take_take, Nat.min_self,
      decide_eq_false hother]
    rfl
  have hfirst : (bytes.take MESSAGE_START_SIZE).foldl (step net) s = { s with phase := .closed } := by
    have hne := ne_nil_of_length_pos (by rw [hlen]; decide)
    rw [foldl_header hs hne (by rw [hlen]; decide), nil_append]
    unfold afterHeader
    rw [hrefused]
  exact foldl_of_closed hfirst rfl

end Frames

/-! ### Conversations -/

section Conversation
variable {net : Network}

def Connection.Follows (net : Network) (c : Connection) (s : Stream) : Prop :=
  Related (InStep net) (GivenUp net) c.hSocket c.node s

theorem related_pushMessage {kept : Bool} {n : CNode} {s : Stream} (msg : CSerializedNetMsg)
    (h : Related (InStep net) (GivenUp net) kept n s) :
    Related (InStep net) (GivenUp net) kept (n.pushMessage net msg) s := by
  rcases kept with _ | _
  · have hgiven : GivenUp net n s := h
    exact (⟨hgiven.selected, hgiven.phase, ⟨hgiven.queued.messages, hgiven.queued.counted⟩⟩ :
      GivenUp net (n.pushMessage net msg) s)
  · have hstep : InStep net n s := h
    exact (⟨hstep.selected, hstep.phase, ⟨hstep.queued.messages, hstep.queued.counted⟩, hstep.serializer⟩ :
      InStep net (n.pushMessage net msg) s)

theorem step_follows {c : Connection} {s : Stream} (h : c.Follows net s) (e : Event) :
    ∃ c', c.step net e = some c' ∧ c'.Follows net ((received [e]).foldl (step net) s) := by
  rcases e with pch | msg
  · have hbytes : received [.receive pch] = pch := flatMap_singleton _ _
    rw [hbytes]
    unfold Connection.Follows at h
    rcases hopen : c.hSocket with _ | _
    · rw [hopen] at h
      refine ⟨c, ?_, ?_⟩
      · unfold Connection.step
        rw [hopen]
        rfl
      · unfold Connection.Follows
        rw [hopen]
        exact (receiveRound_follows net).closed_foldl h pch
    · rw [hopen] at h
      obtain ⟨n, kept, hdrain, hrel⟩ :=
        (receiveRound_follows net).drain pch.length c.node s pch (Nat.le_refl _) h
      refine ⟨{ c with node := n, hSocket := kept }, ?_, hrel⟩
      unfold Connection.step CNode.receiveMsgBytes
      dsimp only
      rw [hopen, hdrain]
      rfl
  · exact ⟨_, rfl, related_pushMessage msg h⟩

theorem run_follows {c : Connection} {s : Stream} (h : c.Follows net s) (events : List Event) :
    ∃ c', c.run net events = some c' ∧ c'.Follows net ((received events).foldl (step net) s) := by
  induction events generalizing c s with
  | nil => exact ⟨c, rfl, h⟩
  | cons e events ih =>
    obtain ⟨c', hstep, hfollows⟩ := step_follows h e
    obtain ⟨c'', hrun, hfollows'⟩ := ih hfollows
    refine ⟨c'', ?_, ?_⟩
    · unfold Connection.run
      rw [foldlM_cons, hstep]
      exact hrun
    · have hbytes : received ([e] ++ events) = received [e] ++ received events := flatMap_append
      rw [singleton_append] at hbytes
      rw [hbytes, foldl_append]
      exact hfollows'

/-! ### What is queued for the socket -/

/-- The header and the payload of a message, as they are queued. -/
def CSerializedNetMsg.parts (net : Network) (start : Bytes) (msg : CSerializedNetMsg) : List Bytes :=
  V1TransportSerializer.prepareForTransport net ⟨start⟩ msg :: if msg.data = [] then [] else [msg.data]

theorem vSendMsg_receiveRound (n : CNode) (pch : Bytes) : (n.receiveRound net pch).1.vSendMsg = n.vSendMsg := by
  unfold CNode.receiveRound CNode.takeMessage CNode.adoptMessageStart
  split
  · rfl
  · dsimp only
    split_ifs <;> (try split) <;> rfl

/-- The serializer has the start that was selected while the connection was open, and keeps it when
    the connection is given up. -/
def Connection.Adopted (net : Network) (legacy : Bool) (c : Connection) (s : Stream) : Prop :=
  Related (fun n s => InStep net n s ∧ s.selected = some legacy)
    (fun n _ => n.m_serializer.m_message_start = net.start legacy) c.hSocket c.node s

theorem receiveRound_adopted (net : Network) (legacy : Bool) :
    Follows (CNode.receiveRound net) (step net) (fun n s => InStep net n s ∧ s.selected = some legacy)
      (fun n _ => n.m_serializer.m_message_start = net.start legacy) where
  round n s pch hn hne := by
    rcases (receiveRound_follows net).round n s pch hn.1 hne with ⟨n', k, hround, hpos, hn'⟩ | ⟨n', hround, -⟩
    · exact Or.inl ⟨n', k, hround, hpos, hn', foldl_selected hn.2 _⟩
    · refine Or.inr ⟨n', hround, ?_⟩
      -- the round that fails does not get as far as the serializer
      unfold CNode.receiveRound at hround
      split at hround
      · cases hround
        exact hn.1.serializer legacy hn.2
      · cases hround
  closed n s b h := h

theorem Connection.Adopted.serializer {legacy : Bool} {c : Connection} {s : Stream} (h : c.Adopted net legacy s) :
    c.node.m_serializer.m_message_start = net.start legacy := by
  unfold Connection.Adopted at h
  cases hopen : c.hSocket with
  | false =>
    rw [hopen] at h
    exact h
  | true =>
    rw [hopen] at h
    exact h.1.serializer legacy h.2

theorem Connection.Adopted.step {legacy : Bool} {c c' : Connection} {s : Stream} (h : c.Adopted net legacy s)
    {e : Event} (hstep : c.step net e = some c') :
    c'.Adopted net legacy ((received [e]).foldl (Stream.step net) s) ∧
      c'.node.vSendMsg = c.node.vSendMsg ++ (pushed [e]).flatMap (CSerializedNetMsg.parts net (net.start legacy)) := by
  have hstart := h.serializer
  unfold Connection.Adopted at h
  rcases e with pch | msg
  · have hbytes : received [.receive pch] = pch := flatMap_singleton _ _
    rw [hbytes, pushed, flatMap_singleton, flatMap_nil, append_nil]
    unfold Connection.step at hstep
    rcases hopen : c.hSocket with _ | _
    · rw [hopen] at hstep
      cases hstep
      unfold Connection.Adopted
      rw [hopen]
      exact ⟨hstart, rfl⟩
    · rw [hopen] at hstep h
      obtain ⟨⟨n, kept⟩, hdrain, rfl⟩ := Option.map_eq_some_iff.mp hstep
      obtain ⟨_, _, hdrain', hrel⟩ :=
        (receiveRound_adopted net legacy).drain pch.length c.node s pch (Nat.le_refl _) h
      cases hdrain.symm.trans hdrain'
      exact ⟨hrel, drain_keeps vSendMsg_receiveRound hdrain⟩
  · cases hstep
    refine ⟨?_, ?_⟩
    · unfold Connection.Adopted
      cases hopen : c.hSocket with
      | false => exact hstart
      | true =>
        rw [hopen] at h
        have hpush : Related (InStep net) (GivenUp net) true (c.node.pushMessage net msg) s :=
          related_pushMessage msg h.1
        exact ⟨hpush, h.2⟩
    · show _ ++ _ :: _ = _
      rw [pushed, flatMap_singleton, flatMap_singleton, CSerializedNetMsg.parts, CNode.pushHeader, ← hstart]

theorem Connection.Adopted.run {legacy : Bool} {c c' : Connection} {s : Stream} (h : c.Adopted net legacy s)
    {events : List Event} (hrun : c.run net events = some c') :
    c'.node.vSendMsg =
      c.node.vSendMsg ++ (pushed events).flatMap (CSerializedNetMsg.parts net (net.start legacy)) := by
  induction events generalizing c s with
  | nil =>
    cases hrun
    exact (append_nil _).symm
  | cons e events ih =>
    obtain ⟨c₁, hstep, hrun⟩ := Option.bind_eq_some_iff.mp hrun
    obtain ⟨hadopted, hsend⟩ := h.step hstep
    have hpushed : pushed ([e] ++ events) = pushed [e] ++ pushed events := flatMap_append
    rw [singleton_append] at hpushed
    rw [ih hadopted hrun, hsend, hpushed, flatMap_append, append_assoc]

end Conversation

def Connection.selectedStart (c : Connection) : Option Bytes :=
  if c.node.m_deserializer.m_message_start_selected then some c.node.m_deserializer.m_active_message_start
  else none

theorem Connection.Follows.selectedStart {net : Network} {c : Connection} {s : Stream}
    (h : c.Follows net s) : c.selectedStart = s.selected.map net.start := by
  obtain ⟨_, hsel, _⟩ := related_spec h
  unfold Connection.selectedStart
  rw [hsel.selected, hsel.active]
  rcases s.selected with _ | _
  · rfl
  · rfl

/-- **One conversation, one message start.** An accepted start in the first four bytes is selected
    for good; frames are queued from headers with the selected start only, and another start closes
    the connection; the legacy start is not selected if it is not accepted. On a connection that is
    open when it has a selection, what is queued for the socket has headers with that start. -/
theorem conversation_keeps_start (net : Network) (use_legacy : Bool) (events events' : List Event) :
    ∃ c c', (Connection.new net use_legacy).run net events = some c ∧
      (Connection.new net use_legacy).run net (events ++ events') = some c' ∧
      (∀ start, net.Accepts start → (received events).take MESSAGE_START_SIZE = start →
        c.selectedStart = some start) ∧
      (∀ start, c.selectedStart = some start → c'.selectedStart = some start) ∧
      (∃ frames rest, received events = frames.flatMap bytes ++ rest ∧
        c.node.vRecvMsg = messages net frames ∧
        ∀ f ∈ frames, ∃ start, c.selectedStart = some start ∧ f.Fits start) ∧
      (∀ start frames rest, net.Accepts start → frames ≠ [] → (∀ f ∈ frames, f.Fits start) →
        received events = frames.flatMap bytes ++ rest → MESSAGE_START_SIZE ≤ rest.length →
        rest.take MESSAGE_START_SIZE ≠ start →
        c.hSocket = false ∧ c.node.vRecvMsg = messages net frames) ∧
      (net.acceptLegacyMagic = false → c.node.m_deserializer.m_using_legacy_magic = false ∧
        ∀ start, c.selectedStart = some start → start = net.messageStartDefcoinMagic) ∧
      (c.hSocket = true → ∀ start, c.selectedStart = some start →
        c'.node.vSendMsg = c.node.vSendMsg ++ (pushed events').flatMap (CSerializedNetMsg.parts net start) ∧
        ∀ msg, ((CSerializedNetMsg.parts net start msg).head (cons_ne_nil _ _)).take MESSAGE_START_SIZE = start) := by
  -- both runs follow the machine over the received bytes; each part is a fact about it
  have hnew : (Connection.new net use_legacy).Follows net .new := inStep_new net use_legacy
  obtain ⟨c, hrun, hc⟩ := run_follows hnew events
  change c.Follows net (Stream.run net (received events)) at hc
  obtain ⟨c', hrun', hc'⟩ := run_follows hc events'
  obtain ⟨hkept, hsel, hq⟩ := related_spec hc
  have hselected := hc.selectedStart
  refine ⟨c, c', hrun, ?_, ?_, ?_, ?_, ?_, ?_, ?_⟩
  · unfold Connection.run at hrun hrun' ⊢
    rw [foldlM_append, hrun]
    exact hrun'
  · intro start haccepts htake
    obtain ⟨legacy, hlegacy, hstart⟩ := Stream.run_accepted haccepts htake
    rw [hselected, hlegacy, ← hstart]
    rfl
  · intro start hstart
    rw [hselected] at hstart
    obtain ⟨legacy, hlegacy, rfl⟩ := Option.map_eq_some_iff.mp hstart
    rw [hc'.selectedStart, Stream.foldl_selected hlegacy]
    rfl
  · obtain ⟨⟨rest, hbytes, _⟩, hframes⟩ := framed_run net (received events)
    refine ⟨_, rest, hbytes, hq.messages, ?_⟩
    intro f hf
    obtain ⟨legacy, hlegacy, hfits⟩ := hframes f hf
    exact ⟨_, by rw [hselected, hlegacy]; rfl, hfits⟩
  · intro start frames rest haccepts hne hframes hbytes hlong hother
    obtain ⟨legacy, hselect, hstart⟩ := select_accepted haccepts
    -- the frames are read one after the other, then the other start closes the machine
    have hclosed : Stream.run net (received events) =
        { phase := .closed, selected := some legacy, frames } := by
      rw [hbytes, Stream.run, foldl_append, ← Stream.run, run_frames hselect hstart hne hframes]
      exact foldl_other_start rfl rfl hlong (by rw [hstart]; exact hother)
    rw [hclosed] at hkept hq
    exact ⟨hkept, hq.messages⟩
  · intro hoff
    have hfirst : Stream.new.selected ≠ some true := by decide
    have hlegacy : (Stream.run net (received events)).selected ≠ some true :=
      Stream.foldl_selection (fun h hselect => select_not_legacy hoff hselect h) hfirst _
    constructor
    · rw [hsel.legacy]
      rcases hchoice : (Stream.run net (received events)).selected with _ | _ | _
      · rfl
      · rfl
      · exact absurd hchoice hlegacy
    · intro start hstart
      rw [hselected] at hstart
      obtain ⟨legacy, hchoice, rfl⟩ := Option.map_eq_some_iff.mp hstart
      rcases legacy with _ | _
      · rfl
      · exact absurd hchoice hlegacy
  · intro hopen start hstart
    rw [hselected] at hstart
    obtain ⟨legacy, hlegacy, rfl⟩ := Option.map_eq_some_iff.mp hstart
    have hadopted : c.Adopted net legacy (Stream.run net (received events)) := by
      unfold Connection.Follows at hc
      unfold Connection.Adopted
      rw [hopen] at hc ⊢
      exact ⟨hc, hlegacy⟩
    refine ⟨hadopted.run hrun', fun msg => ?_⟩
    rw [← net.length_start legacy]
    exact take_left

-- two messages in three pieces, then a header of the network's own start
example : ((Connection.new zeroChecksums false).run zeroChecksums
    [.receive (legacyVerack.take 10), .receive (legacyVerack.drop 10 ++ legacyVerack.take 2),
      .receive (legacyVerack.drop 2 ++ [0xde, 0xfc])]).map (fun c => (c.node.vRecvMsg.length, c.hSocket)) =
        some (2, false) := by
  decide +kernel

end Defcoin.Net
