import Defcoin.Net.DualMagic

/-! # Messages survive the wire

  What `V1TransportSerializer` makes of a message is a frame that the other side accepts, and
  `GetMessage` finds the type and the payload in it.
-/

namespace Defcoin.Net

open ByteCodec List V1TransportSerializer CMessageHeader

/-- A type of at least one printable character, and a payload that is not too large. -/
structure CSerializedNetMsg.Sendable (msg : CSerializedNetMsg) : Prop where
  named : msg.m_type ≠ []
  printable : ∀ c ∈ msg.m_type, 0x20 ≤ c ∧ c ≤ 0x7E
  bounded : msg.data.length ≤ MAX_PROTOCOL_MESSAGE_LENGTH

def CSerializedNetMsg.toNetMessage (msg : CSerializedNetMsg) : CNetMessage where
  m_recv := msg.data
  m_message_size := msg.data.length
  m_raw_message_size := msg.data.length + HEADER_SIZE
  m_command := msg.m_type

def V1TransportSerializer.frame (net : Network) (s : V1TransportSerializer) (msg : CSerializedNetMsg) :
    Frame :=
  ⟨s.prepareForTransport net msg, msg.data⟩

/-! ### Commands -/

theorem resize_type (msg : CSerializedNetMsg) : resize msg.m_type COMMAND_SIZE =
      msg.m_type ++ replicate (COMMAND_SIZE - msg.m_type.length) 0 := by
  rw [resize, take_of_length_le msg.length_type]

theorem takeWhile_type {msg : CSerializedNetMsg} (h : msg.Sendable) :
    (resize msg.m_type COMMAND_SIZE).takeWhile (· ≠ 0) = msg.m_type := by
  have hnonzero : ∀ c ∈ msg.m_type, decide (c ≠ 0) = true := by
    intro c hc
    have hlow := (h.printable c hc).1
    rw [decide_eq_true_iff]
    rintro rfl
    exact absurd hlow (by decide)
  rw [resize_type, takeWhile_append_of_pos hnonzero]
  cases COMMAND_SIZE - msg.m_type.length <;> simp

theorem commandLoop_padded (n : Nat) (type : Bytes) (h : ∀ c ∈ type, 0x20 ≤ c ∧ c ≤ 0x7E) :
    commandLoop (type ++ replicate n 0) = true := by
  induction type with
  | nil =>
    cases n with
    | zero => rfl
    | succ n => simp [replicate_succ, commandLoop]
  | cons c type ih =>
    obtain ⟨hlow, hhigh⟩ := h c mem_cons_self
    have hzero : c ≠ 0 := by
      rintro rfl
      exact absurd hlow (by decide)
    rw [cons_append, commandLoop, if_neg hzero, if_neg]
    · exact ih fun d hd => h d (mem_cons_of_mem c hd)
    · rintro (hlt | hgt)
      · exact absurd hlow (UInt8.not_le.mpr hlt)
      · exact absurd hhigh (UInt8.not_le.mpr hgt)

/-! ### Frames -/

section Sent
variable {net : Network} {start : Bytes} {msg : CSerializedNetMsg}

section
variable (hstart : start.length = MESSAGE_START_SIZE) (hhash : (net.hash256 msg.data).length = 32)
  (h : msg.Sendable)
include hstart hhash h

theorem decodeHeader_sent : decodeHeader (prepareForTransport net ⟨start⟩ msg) =
      { pchMessageStart := start, pchCommand := resize msg.m_type COMMAND_SIZE,
        nMessageSize := msg.data.length,
        pchChecksum := (net.hash256 msg.data).take CHECKSUM_SIZE } := by
  have hsize : msg.data.length < 256 ^ 4 := h.bounded.trans_lt (by decide)
  have hchecksum : ((net.hash256 msg.data).take CHECKSUM_SIZE).length = CHECKSUM_SIZE := by
    rw [length_take, hhash]
    rfl
  unfold prepareForTransport serialize decodeHeader
  rw [(parses_header hstart (length_resize _ _) (parses_le hsize) hchecksum).run]

theorem frame_fits : (frame net ⟨start⟩ msg).Fits start where
  length := by
    show (serialize _).length = _
    simp only [serialize, length_append, length_resize, hstart, length_take, hhash]
    rfl
  start := by
    rw [← hstart]
    exact take_left
  size := by
    show (decodeHeader (prepareForTransport net ⟨start⟩ msg)).nMessageSize = _
    rw [decodeHeader_sent hstart hhash h]
    rfl
  bounded := h.bounded

theorem message_frame : (frame net ⟨start⟩ msg).message net = .ok msg.toNetMessage := by
  have hvalid := commandLoop_padded (COMMAND_SIZE - msg.m_type.length) msg.m_type h.printable
  rw [← resize_type] at hvalid
  unfold Frame.message frame
  rw [decodeHeader_sent hstart hhash h]
  simp only [ne_eq, isCommandValid, hvalid, getCommand, takeWhile_type h]
  rfl

end

end Sent

/-- **Round trip**: messages with one accepted start, in any pieces, are queued as they were sent,
    and the peer is kept. -/
theorem receiveAll_sent (net : Network) (hhash : ∀ data, (net.hash256 data).length = 32)
    (use_legacy : Bool) {start : Bytes} (haccepts : net.Accepts start) (msgs : List CSerializedNetMsg)
    (hmsgs : ∀ msg ∈ msgs, msg.Sendable) (chunks : List Bytes) (hchunks : chunks.flatten =
      msgs.flatMap fun msg => prepareForTransport net ⟨start⟩ msg ++ msg.data) :
    ∃ n, CNode.receiveAll net (.new net use_legacy) chunks = some (n, true) ∧
      n.vRecvMsg = msgs.map CSerializedNetMsg.toNetMessage := by
  obtain ⟨_, hselect, hlegacy⟩ := select_accepted haccepts
  have hstart : start.length = MESSAGE_START_SIZE := by rw [← hlegacy, net.length_start]
  obtain ⟨n, _, hrun, hrel⟩ := receiveAll_spec net use_legacy chunks
  obtain ⟨hkept, -, hq⟩ := related_spec hrel
  rw [hchunks] at hkept hq
  cases msgs with
  | nil => exact ⟨n, by rw [hrun, hkept]; rfl, hq.messages⟩
  | cons msg msgs =>
    have hframes : ((msg :: msgs).map (frame net ⟨start⟩)).flatMap Frame.bytes =
        (msg :: msgs).flatMap fun msg => prepareForTransport net ⟨start⟩ msg ++ msg.data :=
      flatMap_map _ _ _
    have hfits : ∀ f ∈ (msg :: msgs).map (frame net ⟨start⟩), f.Fits start := by
      intro f hf
      obtain ⟨m, hm, rfl⟩ := mem_map.mp hf
      exact frame_fits hstart (hhash _) (hmsgs m hm)
    rw [← hframes, run_frames hselect hlegacy (by simp) hfits] at hkept hq
    refine ⟨n, by rw [hrun, hkept]; rfl, ?_⟩
    rw [hq.messages, messages, filterMap_map, ← filterMap_eq_map]
    apply filterMap_congr
    intro m hm
    simp only [Function.comp_apply, message_frame hstart (hhash _) (hmsgs m hm)]
    rfl

/-- A message with a payload in three pieces, with the legacy start. -/
theorem receiveAll_sent_ping : ∃ n, CNode.receiveAll zeroChecksums (.new zeroChecksums false)
        [[0xfb, 0xc0], [0xb6, 0xdb, 0x70, 0x69, 0x6e, 0x67, 0, 0, 0, 0, 0, 0, 0, 0, 1, 0, 0, 0, 0],
          [0, 0, 0, 7]] = some (n, true) ∧ n.vRecvMsg = [⟨[7], 1, 25, [0x70, 0x69, 0x6e, 0x67]⟩] :=
  receiveAll_sent zeroChecksums (fun _ => rfl) false (Or.inr ⟨rfl, rfl⟩)
    [⟨[7], [0x70, 0x69, 0x6e, 0x67], by decide⟩]
    (by
      intro msg hmsg
      obtain rfl := mem_singleton.mp hmsg
      exact ⟨by decide +kernel, by decide +kernel, by decide +kernel⟩)
    _ rfl

end Defcoin.Net
