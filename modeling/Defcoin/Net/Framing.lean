import Defcoin.Net.Transport

/-! # Messages in a stream of bytes

  What a connection receives is one stream, whatever pieces the socket delivers it in. `Stream.step`
  takes it byte by byte: it collects headers and payloads into frames, selects the message start
  with the fourth byte, and closes at the first byte that cannot belong to an acceptable header.
-/

namespace Defcoin.Net

open ByteCodec ChunkedInput List CMessageHeader Bool

/-! ### The stream, byte by byte -/

/-- The message start that a selection stands for. -/
def Network.start (net : Network) (legacy : Bool) : Bytes :=
  if legacy then net.messageStartLegacyMagic else net.messageStartDefcoinMagic

/-- The bytes of a header do not differ from a message start. -/
def matchesStart (start hb : Bytes) : Bool :=
  hb.take (min hb.length MESSAGE_START_SIZE) == start.take (min hb.length MESSAGE_START_SIZE)

/-- What is selected after the bytes of a header; nothing if they cannot be accepted. The flag of a
    selection tells whether it is the legacy start. -/
def select (net : Network) (selected : Option Bool) (hb : Bytes) : Option (Option Bool) :=
  match selected with
  | some legacy => if matchesStart (net.start legacy) hb then some (some legacy) else none
  | none =>
    let ours := matchesStart (net.start false) hb
    let theirs := net.acceptLegacyMagic && matchesStart (net.start true) hb
    if !ours && !theirs then none
    else if hb.length ≥ MESSAGE_START_SIZE then some (some !ours)
    else some none

structure Frame where
  header : Bytes
  payload : Bytes
deriving DecidableEq

inductive Phase where
  | header (received : Bytes)
  | data (header received : Bytes)
  | closed
deriving DecidableEq

structure Stream where
  phase : Phase
  selected : Option Bool
  frames : List Frame

def decodeHeader (hb : Bytes) : CMessageHeader :=
  match CMessageHeader.unserialize hb with
  | .ok (hdr, _) => hdr
  | .error _ => .default

namespace Stream

def new : Stream := { phase := .header [], selected := none, frames := [] }

def afterData (s : Stream) (header payload : Bytes) : Stream :=
  if payload.length = (decodeHeader header).nMessageSize then
    { s with phase := .header [], frames := s.frames ++ [⟨header, payload⟩] }
  else { s with phase := .data header payload }

def afterHeader (net : Network) (s : Stream) (hb : Bytes) : Stream :=
  match select net s.selected hb with
  | none => { s with phase := .closed }
  | some selected =>
    if hb.length < HEADER_SIZE then { s with phase := .header hb, selected }
    else if (decodeHeader hb).nMessageSize > MAX_PROTOCOL_MESSAGE_LENGTH then
      { s with phase := .closed, selected }
    else { s with selected }.afterData hb []

def step (net : Network) (s : Stream) (b : UInt8) : Stream :=
  match s.phase with
  | .header hb => s.afterHeader net (hb ++ [b])
  | .data header payload => s.afterData header (payload ++ [b])
  | .closed => s

def run (net : Network) (bytes : Bytes) : Stream := bytes.foldl (step net) new

end Stream

/-- The message in a frame, or the size of the corrupt one. -/
def Frame.message (net : Network) (f : Frame) : Except Nat CNetMessage :=
  let hdr := decodeHeader f.header
  if (net.hash256 f.payload).take CHECKSUM_SIZE ≠ hdr.pchChecksum then
    .error (hdr.nMessageSize + HEADER_SIZE)
  else if !hdr.isCommandValid then .error (hdr.nMessageSize + HEADER_SIZE)
  else .ok {
    m_recv := f.payload, m_message_size := hdr.nMessageSize,
    m_raw_message_size := hdr.nMessageSize + HEADER_SIZE, m_command := hdr.getCommand }

def messages (net : Network) (frames : List Frame) : List CNetMessage :=
  frames.filterMap fun f => (f.message net).toOption

/-- A frame is counted under its command, or under none if it is corrupt. -/
def countFrame (net : Network) (m : MapMsgCmdSize) (f : Frame) : MapMsgCmdSize :=
  match f.message net with
  | .error n => m.add NET_MESSAGE_COMMAND_OTHER n
  | .ok msg => m.record msg.m_command msg.m_raw_message_size

/-! ### Selecting a message start -/

section Select
variable {net : Network} {selected selected' : Option Bool} (rest : Bytes)

theorem matchesStart_append {start hb : Bytes} (h : matchesStart start (hb ++ rest) = true) :
    matchesStart start hb = true := by
  unfold matchesStart at h ⊢
  rw [beq_iff_eq] at h ⊢
  have hcut := congrArg (List.take (min hb.length MESSAGE_START_SIZE)) h
  have hle : min hb.length MESSAGE_START_SIZE ≤ min (hb ++ rest).length MESSAGE_START_SIZE := by
    rw [length_append]
    omega
  rwa [take_take, take_take, Nat.min_eq_left hle,
    take_append_of_le_length (Nat.min_le_left _ _)] at hcut

theorem matchesStart_append_of_le (start : Bytes) {hb : Bytes} (rest : Bytes) (hle : MESSAGE_START_SIZE ≤ hb.length) :
    matchesStart start (hb ++ rest) = matchesStart start hb := by
  unfold matchesStart
  rw [length_append, Nat.min_eq_right hle, Nat.min_eq_right (by omega),
    take_append_of_le_length hle]

theorem matchesStart_of_accepted {hb : Bytes} (h : ¬(!matchesStart (net.start false) hb &&
      !(net.acceptLegacyMagic && matchesStart (net.start true) hb)) = true) :
    matchesStart (net.start !matchesStart (net.start false) hb) hb = true := by
  rcases hours : matchesStart (net.start false) hb with _ | _
  · rw [hours] at h
    simp only [Bool.not_false, Bool.true_and, Bool.not_eq_true', Bool.not_eq_false,
      Bool.and_eq_true] at h
    exact h.2
  · exact hours

theorem select_append_none {hb : Bytes} (h : select net selected hb = none) :
    select net selected (hb ++ rest) = none := by
  have hno : ∀ {start}, ¬matchesStart start hb = true → ¬matchesStart start (hb ++ rest) = true :=
    fun hne h => hne (matchesStart_append rest h)
  unfold select at h ⊢
  rcases selected with _ | _
  · dsimp only at h ⊢
    split at h
    · next hrefused =>
      rw [if_pos]
      simp only [and_eq_true, not_eq_true', and_eq_false_iff] at hrefused ⊢
      refine ⟨eq_false_iff.mpr (hno (eq_false_iff.mp hrefused.1)), ?_⟩
      rcases hrefused.2 with hoff | htheirs
      · exact Or.inl hoff
      · exact Or.inr (eq_false_iff.mpr (hno (eq_false_iff.mp htheirs)))
    · split at h <;> cases h
  · dsimp only at h ⊢
    split at h
    · cases h
    · next hrefused => rw [if_neg (hno hrefused)]

theorem select_append_some {hb : Bytes} (h : select net selected hb = some selected') :
    select net selected' (hb ++ rest) = select net selected (hb ++ rest) ∧
      (select net selected (hb ++ rest) = none → selected' = selected) := by
  rcases selected with _ | _
  · unfold select at h
    dsimp only at h
    split at h
    · cases h
    · next haccepted =>
      split at h
      · next hlong =>
        cases h
        -- the first four bytes decide
        have hours := matchesStart_append_of_le (net.start false) rest hlong
        have htheirs := matchesStart_append_of_le (net.start true) rest hlong
        have hlong' : (hb ++ rest).length ≥ MESSAGE_START_SIZE := by
          rw [length_append]
          omega
        have hlater : select net none (hb ++ rest) = some (some !matchesStart (net.start false) hb) := by
          unfold select
          rw [hours, htheirs, if_neg haccepted, if_pos hlong']
        rw [hlater]
        refine ⟨?_, fun hnone => nomatch hnone⟩
        have hmatch : matchesStart (net.start !matchesStart (net.start false) hb) (hb ++ rest) = true := by
          rw [matchesStart_append_of_le _ rest hlong]
          exact matchesStart_of_accepted haccepted
        unfold select
        dsimp only
        rw [if_pos hmatch]
      · cases h
        exact ⟨rfl, fun _ => rfl⟩
  · unfold select at h
    dsimp only at h
    split at h
    · cases h
      exact ⟨rfl, fun _ => rfl⟩
    · cases h

theorem Network.length_start (net : Network) (legacy : Bool) :
    (net.start legacy).length = MESSAGE_START_SIZE := by
  rcases legacy with _ | _
  · exact net.length_defcoin
  · exact net.length_legacy

theorem select_start {hb : Bytes} (hlong : MESSAGE_START_SIZE ≤ hb.length)
    (h : select net selected hb = some selected') :
    ∃ legacy, selected' = some legacy ∧ hb.take MESSAGE_START_SIZE = net.start legacy := by
  have hstart : ∀ legacy, matchesStart (net.start legacy) hb = true →
      hb.take MESSAGE_START_SIZE = net.start legacy := by
    intro legacy hmatch
    unfold matchesStart at hmatch
    rw [beq_iff_eq, Nat.min_eq_right hlong] at hmatch
    rw [hmatch, ← net.length_start legacy, take_length]
  unfold select at h
  rcases selected with _ | legacy
  · dsimp only at h
    split at h
    · cases h
    · next haccepted =>
      cases h
      exact ⟨_, rfl, hstart _ (matchesStart_of_accepted haccepted)⟩
  · dsimp only at h
    split at h
    · next hmatch =>
      cases h
      exact ⟨legacy, rfl, hstart legacy hmatch⟩
    · cases h

end Select

/-! ### Several bytes at once -/

namespace Stream
variable {net : Network}

theorem foldl_closed (s : Stream) (hs : s.phase = .closed) (bytes : Bytes) :
    bytes.foldl (step net) s = s := by
  induction bytes with
  | nil => rfl
  | cons b bytes ih =>
    have hstep : step net s b = s := by
      unfold step
      rw [hs]
    rw [foldl_cons, hstep, ih]

theorem foldl_header {s : Stream} {hb : Bytes} (hs : s.phase = .header hb) {bytes : Bytes}
    (hne : bytes ≠ []) (hle : hb.length + bytes.length ≤ HEADER_SIZE) :
    bytes.foldl (step net) s = s.afterHeader net (hb ++ bytes) := by
  induction bytes generalizing s hb with
  | nil => exact absurd rfl hne
  | cons b bytes ih =>
    have hstep : step net s b = s.afterHeader net (hb ++ [b]) := by
      unfold step
      rw [hs]
    have happend : hb ++ b :: bytes = hb ++ [b] ++ bytes := by simp
    rw [foldl_cons, hstep, happend]
    rcases bytes with _ | ⟨b', bytes⟩
    · rw [append_nil]
      rfl
    -- more bytes do not change what the first ones select or refuse
    · rcases hsel : select net s.selected (hb ++ [b]) with _ | selected
      · have hclosed : s.afterHeader net (hb ++ [b]) = { s with phase := .closed } := by
          unfold afterHeader
          rw [hsel]
        rw [hclosed, foldl_closed _ rfl]
        unfold afterHeader
        rw [select_append_none _ hsel]
      · simp only [length_cons] at hle
        have hshort : (hb ++ [b]).length < HEADER_SIZE := by
          rw [length_append, length_singleton]
          omega
        have hmore : s.afterHeader net (hb ++ [b]) = { s with phase := .header (hb ++ [b]), selected } := by
          unfold afterHeader
          rw [hsel]
          exact if_pos hshort
        have hle' : (hb ++ [b]).length + (b' :: bytes).length ≤ HEADER_SIZE := by
          rw [length_append, length_singleton, length_cons]
          omega
        obtain ⟨hsame, hkept⟩ := select_append_some (b' :: bytes) hsel
        rw [hmore, ih rfl (cons_ne_nil _ _) hle']
        unfold afterHeader
        rw [hsame]
        rcases hlast : select net s.selected (hb ++ [b] ++ b' :: bytes) with _ | _
        · rw [hkept hlast]
        · rfl

theorem foldl_data {s : Stream} {header payload : Bytes} (hs : s.phase = .data header payload) {bytes : Bytes}
    (hne : bytes ≠ []) (hle : payload.length + bytes.length ≤ (decodeHeader header).nMessageSize) :
    bytes.foldl (step net) s = s.afterData header (payload ++ bytes) := by
  induction bytes generalizing s payload with
  | nil => exact absurd rfl hne
  | cons b bytes ih =>
    have hstep : step net s b = s.afterData header (payload ++ [b]) := by
      unfold step
      rw [hs]
    have happend : payload ++ b :: bytes = payload ++ [b] ++ bytes := by simp
    rw [foldl_cons, hstep, happend]
    rcases bytes with _ | ⟨_, bytes⟩
    · rw [append_nil]
      rfl
    · rw [length_cons] at hle
      have hmore : s.afterData header (payload ++ [b]) = { s with phase := .data header (payload ++ [b]) } := by
        unfold afterData
        rw [if_neg]
        rw [length_append, length_singleton]
        rw [length_cons] at hle
        omega
      rw [hmore, ih rfl (cons_ne_nil _ _)]
      · rfl
      · rw [length_append, length_singleton]
        omega

end Stream

/-! ### Buffers -/

theorem length_memcpy {buf pch : Bytes} {pos : Nat} (h : pos + pch.length ≤ buf.length) :
    (memcpy buf pos pch).length = buf.length := by
  unfold memcpy
  rw [length_append, length_append, length_take, length_drop]
  omega

theorem take_memcpy {buf pch : Bytes} {pos : Nat} (h : pos ≤ buf.length) :
    (memcpy buf pos pch).take (pos + pch.length) = buf.take pos ++ pch := by
  unfold memcpy
  have hlen : (buf.take pos ++ pch).length = pos + pch.length := by
    rw [length_append, length_take]
    omega
  rw [← append_assoc, ← hlen, take_left]

theorem length_resize (buf : Bytes) (n : Nat) : (resize buf n).length = n := by
  unfold resize
  rw [length_append, length_take, length_replicate]
  omega

theorem take_resize {buf : Bytes} {n k : Nat} (hn : k ≤ n) (hk : k ≤ buf.length) :
    (resize buf n).take k = buf.take k := by
  unfold resize
  rw [take_append_of_le_length, take_take, Nat.min_eq_left hn]
  rw [length_take]
  omega

theorem parses_header {start command size checksum : Bytes} {n : Nat}
    (hstart : start.length = MESSAGE_START_SIZE) (hcommand : command.length = COMMAND_SIZE)
    (hsize : Parses (readLE 4) size n) (hchecksum : checksum.length = CHECKSUM_SIZE) :
    Parses unserialize (start ++ (command ++ (size ++ checksum)))
      ⟨start, command, n, checksum⟩ := by
  apply (parses_bytes hstart).bind
  apply (parses_bytes hcommand).bind
  apply hsize.bind
  exact (parses_bytes hchecksum).map (mk start command n)

theorem unserialize_header {hb : Bytes} (h : hb.length = HEADER_SIZE) :
    unserialize hb = .ok (decodeHeader hb, []) ∧
      (decodeHeader hb).pchMessageStart = hb.take MESSAGE_START_SIZE := by
  unfold HEADER_SIZE at h
  have hsplit : hb = hb.take 4 ++ ((hb.drop 4).take 12 ++ ((hb.drop 16).take 4 ++ hb.drop 20)) := by
    rw [show hb.drop 20 = (hb.drop 16).drop 4 by rw [drop_drop], take_append_drop,
      show hb.drop 16 = (hb.drop 4).drop 12 by rw [drop_drop], take_append_drop,
      take_append_drop]
  have hstart : (hb.take 4).length = 4 := by rw [length_take]; omega
  have hcommand : ((hb.drop 4).take 12).length = 12 := by rw [length_take, length_drop]; omega
  have hsize : ((hb.drop 16).take 4).length = 4 := by rw [length_take, length_drop]; omega
  have hchecksum : (hb.drop 20).length = 4 := by rw [length_drop]; omega
  obtain ⟨n, hn⟩ := exists_parses_le hsize
  have hread : unserialize hb =
      .ok ({ pchMessageStart := hb.take 4, pchCommand := (hb.drop 4).take 12, nMessageSize := n,
             pchChecksum := hb.drop 20 }, []) := by
    conv_lhs => rw [hsplit]
    exact (parses_header hstart hcommand hn hchecksum).run
  unfold decodeHeader
  rw [hread]
  exact ⟨rfl, rfl⟩

end Defcoin.Net
