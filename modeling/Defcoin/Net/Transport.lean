import Mathlib.Data.List.AList
import Defcoin.Framework.ByteCodec
import Defcoin.Framework.ChunkedInput

/-! # The message transport of a connection

  `V1TransportDeserializer`, `V1TransportSerializer` and the parts of `CNode` around them: bytes
  from the socket become queued messages, and messages to send get their headers.

  A network has two message starts, its own and the legacy one. The first header received selects
  the one that both directions use from then on.
-/

namespace Defcoin.Net

open ByteCodec

/-! ### Headers -/

def MESSAGE_START_SIZE : Nat := 4
def COMMAND_SIZE : Nat := 12
def CHECKSUM_SIZE : Nat := 4
def HEADER_SIZE : Nat := 24

/-- `MAX_SIZE` -/
def MAX_SIZE : Nat := 0x02000000

/-- `MAX_PROTOCOL_MESSAGE_LENGTH` -/
def MAX_PROTOCOL_MESSAGE_LENGTH : Nat := 32 * 1000 * 1000

/-- `CMessageHeader` -/
structure CMessageHeader where
  pchMessageStart : Bytes
  pchCommand : Bytes
  nMessageSize : Nat
  pchChecksum : Bytes
deriving DecidableEq

namespace CMessageHeader

/-- `CMessageHeader()` -/
def default : CMessageHeader where
  pchMessageStart := List.replicate MESSAGE_START_SIZE 0
  pchCommand := List.replicate COMMAND_SIZE 0
  nMessageSize := 2 ^ 32 - 1
  pchChecksum := List.replicate CHECKSUM_SIZE 0

variable (h : CMessageHeader)

def serialize : Bytes :=
  h.pchMessageStart ++ (h.pchCommand ++ (writeLE 4 h.nMessageSize ++ h.pchChecksum))

def unserialize : Reader CMessageHeader := do
  let pchMessageStart ← readBytes MESSAGE_START_SIZE
  let pchCommand ← readBytes COMMAND_SIZE
  let nMessageSize ← readLE 4
  let pchChecksum ← readBytes CHECKSUM_SIZE
  pure { pchMessageStart, pchCommand, nMessageSize, pchChecksum }

/-- `GetCommand` -/
def getCommand : Bytes := h.pchCommand.takeWhile (· ≠ 0)

/-- The loop of `IsCommandValid`: printable characters, then only zeros. -/
def commandLoop : Bytes → Bool
  | [] => true
  | p :: rest =>
    if p = 0 then rest.all (· == 0)
    else if p < 0x20 ∨ p > 0x7E then false
    else commandLoop rest

/-- `IsCommandValid` -/
def isCommandValid : Bool := commandLoop h.pchCommand

end CMessageHeader

/-- The chain parameters, the setting and the hash function that connections share. -/
structure Network where
  messageStartDefcoinMagic : Bytes
  messageStartLegacyMagic : Bytes
  acceptLegacyMagic : Bool
  /-- `CHash256` -/
  hash256 : Bytes → Bytes
  length_defcoin : messageStartDefcoinMagic.length = MESSAGE_START_SIZE
  length_legacy : messageStartLegacyMagic.length = MESSAGE_START_SIZE

/-- `CNetMessage`, without the time of receipt. -/
structure CNetMessage where
  m_recv : Bytes
  m_message_size : Nat
  m_raw_message_size : Nat
  m_command : Bytes
deriving DecidableEq

/-! ### V1TransportDeserializer -/

/-- `V1TransportDeserializer`; `hasher` is what was written to it. -/
structure V1TransportDeserializer where
  hasher : Bytes
  in_data : Bool
  hdrbuf : Bytes
  hdr : CMessageHeader
  vRecv : Bytes
  nHdrPos : Nat
  nDataPos : Nat
  m_active_message_start : Bytes
  m_message_start_selected : Bool
  m_using_legacy_magic : Bool

def memcpy (buf : Bytes) (pos : Nat) (pch : Bytes) : Bytes :=
  buf.take pos ++ (pch ++ buf.drop (pos + pch.length))

/-- `CDataStream::resize` -/
def resize (buf : Bytes) (n : Nat) : Bytes := buf.take n ++ List.replicate (n - buf.length) 0

namespace V1TransportDeserializer

variable (d : V1TransportDeserializer)

/-- `Reset` -/
def reset : V1TransportDeserializer :=
  { d with
    vRecv := [], hdrbuf := resize [] HEADER_SIZE, in_data := false, nHdrPos := 0, nDataPos := 0,
    hasher := [] }

variable (net : Network)

def new : V1TransportDeserializer :=
  reset {
    hasher := [], in_data := false, hdrbuf := [], hdr := .default, vRecv := [], nHdrPos := 0,
    nDataPos := 0, m_active_message_start := net.messageStartDefcoinMagic,
    m_message_start_selected := false, m_using_legacy_magic := false }

/-- `Complete` -/
def complete : Bool :=
  if ¬d.in_data then false else d.hdr.nMessageSize == d.nDataPos

/-- `MatchMessageStart` -/
def matchMessageStart (message_start : Bytes) : Bool :=
  let nCheck := min d.nHdrPos MESSAGE_START_SIZE
  d.hdrbuf.take nCheck == message_start.take nCheck

/-- `TrySelectMessageStart` -/
def trySelectMessageStart (d : V1TransportDeserializer) :
    Bool × V1TransportDeserializer :=
  if d.m_message_start_selected then (d.matchMessageStart d.m_active_message_start, d)
  else
    let matches_network := d.matchMessageStart net.messageStartDefcoinMagic
    let matches_legacy := net.acceptLegacyMagic && d.matchMessageStart net.messageStartLegacyMagic
    if !matches_network && !matches_legacy then (false, d)
    else if d.nHdrPos ≥ MESSAGE_START_SIZE then
      (true, { d with
        m_active_message_start :=
          if matches_network then net.messageStartDefcoinMagic else net.messageStartLegacyMagic,
        m_message_start_selected := true,
        m_using_legacy_magic := !matches_network })
    else (true, d)

def copyHeader (pch : Bytes) : V1TransportDeserializer :=
  { d with hdrbuf := memcpy d.hdrbuf d.nHdrPos pch, nHdrPos := d.nHdrPos + pch.length }

/-- `readHeader`; no number of bytes stands for -1. -/
def readHeader (d : V1TransportDeserializer) (pch : Bytes) :
    V1TransportDeserializer × Option Nat :=
  let nCopy := min (HEADER_SIZE - d.nHdrPos) pch.length
  let (selected, d) := (d.copyHeader (pch.take nCopy)).trySelectMessageStart net
  if !selected then (d, none)
  else if d.nHdrPos < HEADER_SIZE then (d, some nCopy)
  else match CMessageHeader.unserialize d.hdrbuf with
    | .error _ => (d, none)
    | .ok (hdr, rest) =>
      let d := { d with hdrbuf := rest, hdr := hdr }
      if hdr.pchMessageStart ≠ d.m_active_message_start then (d, none)
      else if hdr.nMessageSize > MAX_SIZE ∨ hdr.nMessageSize > MAX_PROTOCOL_MESSAGE_LENGTH then (d, none)
      else ({ d with in_data := true }, some nCopy)

/-- `readData` -/
def readData (pch : Bytes) : V1TransportDeserializer × Option Nat :=
  let nCopy := min (d.hdr.nMessageSize - d.nDataPos) pch.length
  -- allocate up to 256 KiB ahead, but never more than the total message size
  let vRecv :=
    if d.vRecv.length < d.nDataPos + nCopy then
      resize d.vRecv (min d.hdr.nMessageSize (d.nDataPos + nCopy + 256 * 1024))
    else d.vRecv
  ({ d with
    hasher := d.hasher ++ pch.take nCopy, vRecv := memcpy vRecv d.nDataPos (pch.take nCopy),
    nDataPos := d.nDataPos + nCopy }, some nCopy)

/-- `Read` -/
def read (d : V1TransportDeserializer) (pch : Bytes) :
    V1TransportDeserializer × Option Nat :=
  match if d.in_data then d.readData pch else d.readHeader net pch with
  | (d, none) => (d.reset, none)
  | (d, some n) => (d, some n)

/-- `GetMessage`: the message, or the size of the corrupt one. -/
def getMessage (d : V1TransportDeserializer) :
    Except Nat CNetMessage × V1TransportDeserializer :=
  let msg : CNetMessage := {
    m_recv := d.vRecv, m_message_size := d.hdr.nMessageSize,
    m_raw_message_size := d.hdr.nMessageSize + HEADER_SIZE, m_command := d.hdr.getCommand }
  let hash := net.hash256 d.hasher
  let result :=
    if hash.take CHECKSUM_SIZE ≠ d.hdr.pchChecksum then .error msg.m_raw_message_size
    else if !d.hdr.isCommandValid then .error msg.m_raw_message_size
    else .ok msg
  (result, d.reset)

end V1TransportDeserializer

/-! ### V1TransportSerializer -/

/-- `CSerializedNetMsg`; the type is one of the names in `NetMsgType`, all short enough. -/
structure CSerializedNetMsg where
  data : Bytes
  m_type : Bytes
  length_type : m_type.length ≤ COMMAND_SIZE

/-- `V1TransportSerializer` -/
structure V1TransportSerializer where
  m_message_start : Bytes

/-- `prepareForTransport` -/
def V1TransportSerializer.prepareForTransport (net : Network) (s : V1TransportSerializer)
    (msg : CSerializedNetMsg) : Bytes :=
  CMessageHeader.serialize {
    pchMessageStart := s.m_message_start, pchCommand := resize msg.m_type COMMAND_SIZE,
    nMessageSize := msg.data.length, pchChecksum := (net.hash256 msg.data).take CHECKSUM_SIZE }

/-! ### Bytes for each command -/

/-- `NET_MESSAGE_COMMAND_OTHER` -/
def NET_MESSAGE_COMMAND_OTHER : Bytes := "*other*".toUTF8.toList

/-- `getAllNetMessageTypes` -/
def allNetMessageTypes : List Bytes :=
  ["version", "verack", "addr", "addrv2", "sendaddrv2", "inv", "getdata", "merkleblock", "getblocks",
    "getheaders", "tx", "headers", "block", "getaddr", "mempool", "ping", "pong", "notfound",
    "filterload", "filteradd", "filterclear", "sendheaders", "feefilter", "sendcmpct", "cmpctblock",
    "getblocktxn", "blocktxn", "getcfilters", "cfilter", "getcfheaders", "cfheaders", "getcfcheckpt",
    "cfcheckpt", "wtxidrelay", "mwebheader", "mwebleafset", "getmwebutxos", "mwebutxos"].map
    fun name => name.toUTF8.toList

/-- `mapRecvBytesPerMsgCmd`, which has an entry for the commands it does not know. -/
structure MapMsgCmdSize where
  sizes : AList fun _ : Bytes => UInt64
  other_mem : NET_MESSAGE_COMMAND_OTHER ∈ sizes

namespace MapMsgCmdSize

/-- The map that the constructor of `CNode` fills. -/
def new : MapMsgCmdSize where
  sizes := AList.insert NET_MESSAGE_COMMAND_OTHER 0
    (allNetMessageTypes.foldl (fun m name => AList.insert name 0 m) ∅)
  other_mem := (AList.mem_insert _).mpr (Or.inl rfl)

def add (m : MapMsgCmdSize) (name : Bytes) (n : Nat) : MapMsgCmdSize where
  sizes := m.sizes.insert name ((m.sizes.lookup name).getD 0 + UInt64.ofNat n)
  other_mem := (AList.mem_insert _).mpr (Or.inr m.other_mem)

def record (m : MapMsgCmdSize) (name : Bytes) (n : Nat) : MapMsgCmdSize :=
  if name ∈ m.sizes then m.add name n else m.add NET_MESSAGE_COMMAND_OTHER n

end MapMsgCmdSize

/-! ### CNode -/

/-- The members of `CNode` that take part in the transport. -/
structure CNode where
  m_deserializer : V1TransportDeserializer
  m_serializer : V1TransportSerializer
  vRecvMsg : List CNetMessage
  mapRecvBytesPerMsgCmd : MapMsgCmdSize
  vSendMsg : List Bytes

namespace CNode

variable (net : Network)

def new (use_legacy_outbound_magic : Bool) : CNode where
  m_deserializer := .new net
  m_serializer := {
    m_message_start := if use_legacy_outbound_magic then net.messageStartLegacyMagic
      else net.messageStartDefcoinMagic }
  vRecvMsg := []
  mapRecvBytesPerMsgCmd := .new
  vSendMsg := []

variable (n : CNode)

def takeMessage : CNode :=
  let (result, d) := n.m_deserializer.getMessage net
  let n := { n with m_deserializer := d }
  match result with
  | .error out_err_raw_size =>
    -- drop the message but don't disconnect the peer
    { n with mapRecvBytesPerMsgCmd := n.mapRecvBytesPerMsgCmd.add NET_MESSAGE_COMMAND_OTHER out_err_raw_size }
  | .ok msg =>
    { n with
      mapRecvBytesPerMsgCmd := n.mapRecvBytesPerMsgCmd.record msg.m_command msg.m_raw_message_size,
      vRecvMsg := n.vRecvMsg ++ [msg] }

/-- The serializer uses the message start that the deserializer has selected. -/
def adoptMessageStart : CNode :=
  if n.m_deserializer.m_message_start_selected then
    { n with m_serializer := { m_message_start := n.m_deserializer.m_active_message_start } }
  else n

/-- One round of the loop of `ReceiveMsgBytes`. -/
def receiveRound (pch : Bytes) : CNode × Option Nat :=
  match n.m_deserializer.read net pch with
  | (d, none) => ({ n with m_deserializer := d }, none)
  | (d, some handled) =>
    let n := { n with m_deserializer := d }.adoptMessageStart
    (if n.m_deserializer.complete then n.takeMessage net else n, some handled)

/-- `ReceiveMsgBytes`; false if the peer should be disconnected from. -/
def receiveMsgBytes (pch : Bytes) : Option (CNode × Bool) :=
  ChunkedInput.drain (receiveRound net) pch.length n pch

/-- One `ReceiveMsgBytes` call after the other, until the peer is disconnected from. -/
def receiveAll (chunks : List Bytes) : Option (CNode × Bool) :=
  ChunkedInput.drainAll (receiveRound net) n chunks

/-- The header that `PushMessage` prepares. -/
def pushHeader (msg : CSerializedNetMsg) : Bytes :=
  n.m_serializer.prepareForTransport net msg

/-- `CConnman::PushMessage`: header and payload are queued for the socket. -/
def pushMessage (msg : CSerializedNetMsg) : CNode :=
  { n with vSendMsg := n.vSendMsg ++ n.pushHeader net msg :: (if msg.data = [] then [] else [msg.data]) }

end CNode

end Defcoin.Net
