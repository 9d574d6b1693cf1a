import Defcoin.Net.Framing

/-! # Segmentation does not matter

  A connection that wants more is in step with the stream: the buffers of its deserializer hold the
  unfinished header or payload, and its queue holds the messages of all frames so far.
-/

namespace Defcoin.Net

open ByteCodec ChunkedInput Defcoin.Net.Stream List V1TransportDeserializer CNode

/-! ### In step with the stream -/

structure Selected (net : Network) (d : V1TransportDeserializer) (choice : Option Bool) : Prop where
  selected : d.m_message_start_selected = choice.isSome
  active : d.m_active_message_start = net.start (choice.getD false)
  legacy : d.m_using_legacy_magic = choice.getD false

/-- The unfinished header is in the buffer, and nothing else. -/
structure InHeader (d : V1TransportDeserializer) (hb : Bytes) : Prop where
  in_data : d.in_data = false
  pos : d.nHdrPos = hb.length
  length : d.hdrbuf.length = HEADER_SIZE
  received : d.hdrbuf.take hb.length = hb
  hasher : d.hasher = []
  vRecv : d.vRecv = []
  dataPos : d.nDataPos = 0

/-- The payload so far is in the front of the buffer, which is never larger than the message. -/
structure InData (d : V1TransportDeserializer) (header payload : Bytes) : Prop where
  in_data : d.in_data = true
  hdr : d.hdr = decodeHeader header
  pos : d.nDataPos = payload.length
  allocated : payload.length ≤ d.vRecv.length
  bounded : d.vRecv.length ≤ d.hdr.nMessageSize
  received : d.vRecv.take payload.length = payload
  hasher : d.hasher = payload

/-- The deserializer is where the stream is. -/
def InPhase (d : V1TransportDeserializer) : Phase → Prop
  | .header hb => InHeader d hb ∧ hb.length < HEADER_SIZE
  | .data header payload =>
    InData d header payload ∧ payload.length < (decodeHeader header).nMessageSize
  | .closed => False

/-- The queue holds the messages of the frames, and their bytes are counted. -/
structure Queued (net : Network) (n : CNode) (frames : List Frame) : Prop where
  messages : n.vRecvMsg = messages net frames
  counted : n.mapRecvBytesPerMsgCmd = frames.foldl (countFrame net) .new

structure InStep (net : Network) (n : CNode) (s : Stream) : Prop where
  selected : Selected net n.m_deserializer s.selected
  phase : InPhase n.m_deserializer s.phase
  queued : Queued net n s.frames
  serializer : ∀ legacy, s.selected = some legacy → n.m_serializer.m_message_start = net.start legacy

structure GivenUp (net : Network) (n : CNode) (s : Stream) : Prop where
  selected : Selected net n.m_deserializer s.selected
  phase : s.phase = .closed
  queued : Queued net n s.frames

section Read
variable {net : Network} {d : V1TransportDeserializer}

theorem inHeader_reset (d : V1TransportDeserializer) : InHeader d.reset [] where
  in_data := rfl
  pos := rfl
  length := rfl
  received := rfl
  hasher := rfl
  vRecv := rfl
  dataPos := rfl

/-! ### Headers -/

theorem matchMessageStart_eq {hb : Bytes} (hd : InHeader d hb) (start : Bytes) :
    d.matchMessageStart start = matchesStart start hb := by
  unfold matchMessageStart matchesStart
  have hcut : d.hdrbuf.take (min hb.length MESSAGE_START_SIZE) =
      hb.take (min hb.length MESSAGE_START_SIZE) := by
    calc d.hdrbuf.take (min hb.length MESSAGE_START_SIZE)
        = (d.hdrbuf.take hb.length).take (min hb.length MESSAGE_START_SIZE) := by
          rw [take_take, Nat.min_eq_left (Nat.min_le_left _ _)]
      _ = hb.take (min hb.length MESSAGE_START_SIZE) := by rw [hd.received]
  rw [hd.pos]
  dsimp only
  rw [hcut]

theorem trySelectMessageStart_eq {choice : Option Bool} {hb : Bytes} (hsel : Selected net d choice)
    (hd : InHeader d hb) : ∃ d', d.trySelectMessageStart net = ((select net choice hb).isSome, d') ∧
      Selected net d' ((select net choice hb).getD choice) ∧ InHeader d' hb := by
  rcases choice with _ | legacy
  -- before the selection both starts are tried, the own one first
  · have hcode : d.trySelectMessageStart net =
        if !matchesStart (net.start false) hb &&
            !(net.acceptLegacyMagic && matchesStart (net.start true) hb) then (false, d)
        else if hb.length ≥ MESSAGE_START_SIZE then
          (true, { d with
            m_active_message_start := if matchesStart (net.start false) hb then net.start false
              else net.start true,
            m_message_start_selected := true,
            m_using_legacy_magic := !matchesStart (net.start false) hb })
        else (true, d) := by
      unfold trySelectMessageStart
      rw [hsel.selected]
      simp only [matchMessageStart_eq hd, hd.pos]
      rfl
    rw [hcode]
    unfold select
    dsimp only
    split
    · exact ⟨d, rfl, hsel, hd⟩
    · split
      · refine ⟨_, rfl, ⟨rfl, ?_, rfl⟩, ⟨hd.in_data, hd.pos, hd.length, hd.received, hd.hasher, hd.vRecv,
          hd.dataPos⟩⟩
        rcases matchesStart (net.start false) hb with _ | _
        · rfl
        · rfl
      · exact ⟨d, rfl, hsel, hd⟩
  · have hcode : d.trySelectMessageStart net = (matchesStart (net.start legacy) hb, d) := by
      unfold trySelectMessageStart
      rw [hsel.selected, hsel.active, matchMessageStart_eq hd]
      rfl
    rw [hcode]
    unfold select
    dsimp only
    rcases matchesStart (net.start legacy) hb with _ | _
    · exact ⟨d, rfl, hsel, hd⟩
    · exact ⟨d, rfl, hsel, hd⟩

theorem inHeader_copyHeader {hb bytes : Bytes} (hd : InHeader d hb)
    (hle : hb.length + bytes.length ≤ HEADER_SIZE) : InHeader (d.copyHeader bytes) (hb ++ bytes) where
  in_data := hd.in_data
  pos := by
    show d.nHdrPos + bytes.length = _
    rw [hd.pos, length_append]
  length := by
    show (memcpy d.hdrbuf d.nHdrPos bytes).length = _
    rw [length_memcpy, hd.length]
    rw [hd.pos, hd.length]
    exact hle
  received := by
    show (memcpy d.hdrbuf d.nHdrPos bytes).take _ = _
    rw [hd.pos, length_append, take_memcpy, hd.received]
    rw [hd.length]
    omega
  hasher := hd.hasher
  vRecv := hd.vRecv
  dataPos := hd.dataPos

/-- What `readHeader` takes of its bytes. -/
def headerPart (hb pch : Bytes) : Bytes := pch.take (min (HEADER_SIZE - hb.length) pch.length)

theorem length_headerPart (hb pch : Bytes) :
    (headerPart hb pch).length = min (HEADER_SIZE - hb.length) pch.length := by
  simp [headerPart]

theorem readHeader_eq (pch : Bytes) {choice : Option Bool} {hb : Bytes} (hsel : Selected net d choice)
    (hd : InHeader d hb) (hlt : hb.length < HEADER_SIZE) :
    ∃ d', Selected net d' ((select net choice (hb ++ headerPart hb pch)).getD choice) ∧
      InHeader d' (hb ++ headerPart hb pch) ∧ d.readHeader net pch =
        if (select net choice (hb ++ headerPart hb pch)).isNone then (d', none)
        else if (hb ++ headerPart hb pch).length < HEADER_SIZE then (d', some (headerPart hb pch).length)
        else if (decodeHeader (hb ++ headerPart hb pch)).nMessageSize > MAX_PROTOCOL_MESSAGE_LENGTH then
          ({ d' with hdrbuf := [], hdr := decodeHeader (hb ++ headerPart hb pch) }, none)
        else
          ({ d' with hdrbuf := [], hdr := decodeHeader (hb ++ headerPart hb pch), in_data := true },
            some (headerPart hb pch).length) := by
  have hpart := length_headerPart hb pch
  have hd₀ : InHeader (d.copyHeader (headerPart hb pch)) (hb ++ headerPart hb pch) :=
    inHeader_copyHeader hd (by omega)
  have hsel₀ : Selected net (d.copyHeader (headerPart hb pch)) choice :=
    ⟨hsel.selected, hsel.active, hsel.legacy⟩
  obtain ⟨d', htry, hsel', hd'⟩ := trySelectMessageStart_eq hsel₀ hd₀
  refine ⟨d', hsel', hd', ?_⟩
  unfold readHeader
  rw [hd.pos]
  dsimp only
  rw [← headerPart, htry, ← hpart]
  generalize hb ++ headerPart hb pch = hb' at hsel' hd' ⊢
  rcases hselect : select net choice hb' with _ | _
  · rfl
  · simp only [Option.isSome_some, Bool.not_true, Option.isNone_some]
    rw [hd'.pos]
    by_cases hshort : hb'.length < HEADER_SIZE
    · rw [if_pos hshort, if_pos hshort]
    -- the buffer has the length of a header, so a full one is what was received
    · have hfull : hb'.length = HEADER_SIZE := by
        have hbound : hb'.length ≤ d'.hdrbuf.length := by
          rw [← hd'.received, length_take]
          omega
        rw [hd'.length] at hbound
        omega
      have hbuf : d'.hdrbuf = hb' := by
        rw [← hd'.received, hfull, ← hd'.length, take_length]
      obtain ⟨hread, hstart⟩ := unserialize_header hfull
      obtain ⟨legacy, hlegacy, htake⟩ := select_start
        (show MESSAGE_START_SIZE ≤ hb'.length by rw [hfull]; decide) hselect
      have hactive : (decodeHeader hb').pchMessageStart = d'.m_active_message_start := by
        rw [hstart, htake, hsel'.active, hselect, hlegacy]
        rfl
      have hsize : ((decodeHeader hb').nMessageSize > MAX_SIZE ∨
          (decodeHeader hb').nMessageSize > MAX_PROTOCOL_MESSAGE_LENGTH) ↔
          (decodeHeader hb').nMessageSize > MAX_PROTOCOL_MESSAGE_LENGTH := by
        unfold MAX_SIZE MAX_PROTOCOL_MESSAGE_LENGTH
        omega
      rw [if_neg hshort, if_neg hshort, hbuf, hread]
      dsimp only
      rw [if_neg (not_not_intro hactive)]
      simp only [hsize]

/-! ### Payloads -/

/-- What `readData` takes of its bytes. -/
def dataPart (header payload pch : Bytes) : Bytes :=
  pch.take (min ((decodeHeader header).nMessageSize - payload.length) pch.length)

theorem length_dataPart (header payload pch : Bytes) : (dataPart header payload pch).length =
    min ((decodeHeader header).nMessageSize - payload.length) pch.length := by
  simp [dataPart]

theorem readData_eq (net : Network) (pch : Bytes) {header payload : Bytes} (hd : InData d header payload)
    (hlt : payload.length < (decodeHeader header).nMessageSize) :
    ∃ d', d.readData pch = (d', some (dataPart header payload pch).length) ∧
      InData d' header (payload ++ dataPart header payload pch) ∧
      ∀ choice, Selected net d choice → Selected net d' choice := by
  have hpart := length_dataPart header payload pch
  unfold readData
  have hhdr := hd.hdr
  have hbounded := hd.bounded
  rw [hhdr] at hbounded ⊢
  rw [hd.pos]
  dsimp only
  rw [← dataPart, ← hpart]
  generalize hbytes : dataPart header payload pch = bytes at hpart ⊢
  -- the buffer after it was enlarged, if it was
  have hgrown : ∃ buf, (if d.vRecv.length < payload.length + bytes.length then
      resize d.vRecv (min (decodeHeader header).nMessageSize (payload.length + bytes.length + 256 * 1024))
      else d.vRecv) = buf ∧ payload.length + bytes.length ≤ buf.length ∧
      buf.length ≤ (decodeHeader header).nMessageSize ∧ buf.take payload.length = payload := by
    by_cases hsmall : d.vRecv.length < payload.length + bytes.length
    · refine ⟨_, rfl, ?_, ?_, ?_⟩
      · rw [if_pos hsmall, length_resize]
        omega
      · rw [if_pos hsmall, length_resize]
        omega
      · rw [if_pos hsmall, take_resize (by omega) hd.allocated, hd.received]
    · rw [if_neg hsmall]
      exact ⟨_, rfl, by omega, hbounded, hd.received⟩
  obtain ⟨buf, hbuf, hroom, hbuf', hfront⟩ := hgrown
  rw [hbuf]
  refine ⟨_, rfl, ?_, fun choice hsel => ⟨hsel.selected, hsel.active, hsel.legacy⟩⟩
  constructor
  · exact hd.in_data
  · rfl
  · exact length_append.symm
  · rw [length_memcpy hroom, length_append]
    exact hroom
  · rw [length_memcpy hroom]
    exact hbuf'
  · rw [length_append, take_memcpy (by omega), hfront]
  · rw [hd.hasher]

end Read

/-! ### Rounds -/

section Rounds
variable {net : Network} {n : CNode} {s : Stream}

theorem getMessage_eq {d : V1TransportDeserializer} {header payload : Bytes} (hd : InData d header payload)
    (hfull : payload.length = (decodeHeader header).nMessageSize) :
    d.getMessage net = (Frame.message net ⟨header, payload⟩, d.reset) := by
  have hbuf : d.vRecv = payload := by
    have hbounded := hd.bounded
    rw [hd.hdr, ← hfull] at hbounded
    rw [← hd.received, take_of_length_le hbounded]
  unfold getMessage Frame.message
  rw [hbuf, hd.hasher, hd.hdr]

theorem adoptMessageStart_spec (n : CNode) (choice : Option Bool) (hsel : Selected net n.m_deserializer choice) :
    n.adoptMessageStart.m_deserializer = n.m_deserializer ∧
      (∀ frames, Queued net n frames → Queued net n.adoptMessageStart frames) ∧
      ∀ legacy, choice = some legacy → n.adoptMessageStart.m_serializer.m_message_start = net.start legacy := by
  unfold adoptMessageStart
  rw [hsel.selected]
  rcases choice with _ | legacy
  · exact ⟨rfl, fun _ hq => hq, fun legacy h => nomatch h⟩
  · refine ⟨rfl, fun _ hq => ⟨hq.messages, hq.counted⟩, ?_⟩
    rintro _ ⟨⟩
    exact hsel.active

theorem inStep_afterData {d : V1TransportDeserializer} {header payload : Bytes}
    (hsel : Selected net d s.selected) (hd : InData d header payload)
    (hle : payload.length ≤ (decodeHeader header).nMessageSize) (hq : Queued net n s.frames) :
    InStep net (let n := { n with m_deserializer := d }.adoptMessageStart
      if n.m_deserializer.complete then n.takeMessage net else n) (s.afterData header payload) := by
  obtain ⟨hdes, hqueue, hser⟩ := adoptMessageStart_spec { n with m_deserializer := d } s.selected hsel
  replace hq := hqueue s.frames ⟨hq.messages, hq.counted⟩
  generalize { n with m_deserializer := d }.adoptMessageStart = n at hdes hser hq ⊢
  obtain rfl : d = n.m_deserializer := hdes.symm
  have hcomplete : n.m_deserializer.complete = decide (payload.length = (decodeHeader header).nMessageSize) := by
    unfold complete
    rw [hd.in_data, hd.hdr, hd.pos, if_neg (not_not_intro rfl), Bool.eq_iff_iff, beq_iff_eq,
      decide_eq_true_iff]
    exact eq_comm
  unfold afterData
  dsimp only
  by_cases hfull : payload.length = (decodeHeader header).nMessageSize
  · rw [hcomplete, decide_eq_true hfull, if_pos hfull]
    unfold takeMessage
    rw [getMessage_eq hd hfull]
    have hphase : InPhase n.m_deserializer.reset (.header []) := ⟨inHeader_reset _, by decide⟩
    have hsel' : Selected net n.m_deserializer.reset s.selected := ⟨hsel.selected, hsel.active, hsel.legacy⟩
    -- a refused message is counted but not queued
    rcases hmsg : Frame.message net ⟨header, payload⟩ with size | msg
    · refine ⟨hsel', hphase, ⟨?_, ?_⟩, hser⟩
      · rw [hq.messages, messages, messages, filterMap_append, filterMap_cons, hmsg]
        simp [Except.toOption]
      · show n.mapRecvBytesPerMsgCmd.add NET_MESSAGE_COMMAND_OTHER size = _
        rw [foldl_append, ← hq.counted, foldl_cons, foldl_nil, countFrame, hmsg]
    · refine ⟨hsel', hphase, ⟨?_, ?_⟩, hser⟩
      · rw [hq.messages, messages, messages, filterMap_append, filterMap_cons, hmsg]
        simp [Except.toOption]
      · show n.mapRecvBytesPerMsgCmd.record msg.m_command msg.m_raw_message_size = _
        rw [foldl_append, ← hq.counted, foldl_cons, foldl_nil, countFrame, hmsg]
  · rw [hcomplete, decide_eq_false hfull, if_neg hfull]
    exact ⟨hsel, ⟨hd, by omega⟩, hq, hser⟩

theorem foldl_of_closed {pch : Bytes} {k : Nat} {s' : Stream}
    (h : (pch.take k).foldl (step net) s = s') (hs' : s'.phase = .closed) :
    pch.foldl (step net) s = s' := by
  conv_lhs => rw [← take_append_drop k pch]
  rw [foldl_append, h, foldl_closed _ hs']

theorem read_header {d : V1TransportDeserializer} (h : d.in_data = false) (pch : Bytes) : d.read net pch =
    match d.readHeader net pch with
    | (d, none) => (d.reset, none)
    | (d, some n) => (d, some n) := by
  unfold V1TransportDeserializer.read
  rw [h]
  rfl

theorem round_header {hb pch : Bytes} (hn : InStep net n s) (hs : s.phase = .header hb) (hne : pch ≠ []) :
    (∃ n' k, n.receiveRound net pch = (n', some k) ∧ 0 < k ∧
        InStep net n' ((pch.take k).foldl (step net) s)) ∨
      ∃ n', n.receiveRound net pch = (n', none) ∧ GivenUp net n' (pch.foldl (step net) s) := by
  obtain ⟨hd, hlt⟩ : InHeader n.m_deserializer hb ∧ hb.length < HEADER_SIZE := by
    have := hn.phase
    rwa [hs] at this
  have hpos : 0 < pch.length := length_pos_iff.mpr hne
  have hpart := length_headerPart hb pch
  have hfold : (pch.take (headerPart hb pch).length).foldl (step net) s =
      s.afterHeader net (hb ++ headerPart hb pch) := by
    rw [hpart, ← headerPart]
    exact foldl_header hs (ne_nil_of_length_pos (by omega)) (by omega)
  obtain ⟨d', hsel', hd', hread⟩ := readHeader_eq pch hn.selected hd hlt
  unfold receiveRound
  rw [read_header hd.in_data, hread]
  unfold afterHeader at hfold
  generalize hb ++ headerPart hb pch = hb' at hsel' hd' hfold ⊢
  rcases hselect : select net s.selected hb' with _ | choice
  -- no accepted start: the connection is given up
  · rw [hselect] at hsel' hfold
    right
    refine ⟨_, rfl, ?_⟩
    rw [foldl_of_closed hfold rfl]
    exact ⟨⟨hsel'.selected, hsel'.active, hsel'.legacy⟩, rfl, ⟨hn.queued.messages, hn.queued.counted⟩⟩
  · rw [hselect] at hsel' hfold
    dsimp only at hfold
    by_cases hshort : hb'.length < HEADER_SIZE
    -- part of the header is missing, so no message can be complete
    · rw [if_pos hshort] at hfold ⊢
      left
      refine ⟨_, _, rfl, by omega, ?_⟩
      rw [hfold]
      obtain ⟨hdes, hqueue, hser⟩ := adoptMessageStart_spec { n with m_deserializer := d' } choice hsel'
      have hincomplete : d'.complete = false := by
        unfold complete
        rw [hd'.in_data]
        rfl
      rw [hdes, hincomplete]
      refine ⟨?_, ?_, hqueue _ ⟨hn.queued.messages, hn.queued.counted⟩, hser⟩
      · rw [if_neg Bool.false_ne_true, hdes]
        exact hsel'
      · rw [if_neg Bool.false_ne_true, hdes]
        exact ⟨hd', hshort⟩
    · rw [if_neg hshort] at hfold ⊢
      by_cases hbig : (decodeHeader hb').nMessageSize > MAX_PROTOCOL_MESSAGE_LENGTH
      · rw [if_pos hbig] at hfold ⊢
        right
        refine ⟨_, rfl, ?_⟩
        rw [foldl_of_closed hfold rfl]
        exact ⟨⟨hsel'.selected, hsel'.active, hsel'.legacy⟩, rfl,
          ⟨hn.queued.messages, hn.queued.counted⟩⟩
      · rw [if_neg hbig] at hfold ⊢
        left
        refine ⟨_, _, rfl, by omega, ?_⟩
        rw [hfold]
        -- reading goes on in the data, none of which has arrived
        have hdata : InData { d' with hdrbuf := [], hdr := decodeHeader hb', in_data := true } hb' [] := by
          refine ⟨rfl, rfl, hd'.dataPos, Nat.zero_le _, ?_, rfl, hd'.hasher⟩
          rw [hd'.vRecv]
          exact Nat.zero_le _
        exact inStep_afterData ⟨hsel'.selected, hsel'.active, hsel'.legacy⟩ hdata (Nat.zero_le _)
          ⟨hn.queued.messages, hn.queued.counted⟩

theorem round_data {header payload pch : Bytes} (hn : InStep net n s) (hs : s.phase = .data header payload)
    (hne : pch ≠ []) : ∃ n' k, n.receiveRound net pch = (n', some k) ∧ 0 < k ∧
      InStep net n' ((pch.take k).foldl (step net) s) := by
  obtain ⟨hd, hlt⟩ : InData n.m_deserializer header payload ∧
      payload.length < (decodeHeader header).nMessageSize := by
    have := hn.phase
    rwa [hs] at this
  have hpos : 0 < pch.length := length_pos_iff.mpr hne
  have hpart := length_dataPart header payload pch
  have hfold : (pch.take (dataPart header payload pch).length).foldl (step net) s =
      s.afterData header (payload ++ dataPart header payload pch) := by
    rw [hpart, ← dataPart]
    exact foldl_data hs (ne_nil_of_length_pos (by omega)) (by omega)
  obtain ⟨d', hread, hd', hkeeps⟩ := readData_eq net pch hd hlt
  have hcode : n.m_deserializer.read net pch = (d', some (dataPart header payload pch).length) := by
    unfold V1TransportDeserializer.read
    rw [hd.in_data, if_pos rfl, hread]
  unfold receiveRound
  rw [hcode]
  refine ⟨_, _, rfl, by omega, ?_⟩
  rw [hfold]
  apply inStep_afterData (hkeeps _ hn.selected) hd' _ hn.queued
  rw [length_append]
  omega

theorem receiveRound_follows (net : Network) :
    Follows (receiveRound net) (step net) (InStep net) (GivenUp net) where
  round n s pch hn hne := by
    rcases hs : s.phase with hb | ⟨header, _⟩ | _
    · exact round_header hn hs hne
    · exact Or.inl (round_data hn hs hne)
    · have := hn.phase
      rw [hs] at this
      exact this.elim
  closed n s b h := by
    have hstep : step net s b = s := by
      unfold step
      rw [h.phase]
    rw [hstep]
    exact h

theorem inStep_new (net : Network) (use_legacy : Bool) : InStep net (.new net use_legacy) .new where
  selected := ⟨rfl, rfl, rfl⟩
  phase := ⟨inHeader_reset _, by decide⟩
  queued := ⟨rfl, rfl⟩
  serializer _ h := nomatch h

end Rounds

/-! ### Cuts -/

theorem receiveAll_spec (net : Network) (use_legacy : Bool) (chunks : List Bytes) :
    ∃ n kept, receiveAll net (.new net use_legacy) chunks = some (n, kept) ∧
      Related (InStep net) (GivenUp net) kept n (run net chunks.flatten) :=
  (receiveRound_follows net).drainAll chunks (inStep_new net use_legacy)

theorem related_spec {net : Network} {kept : Bool} {n : CNode} {s : Stream}
    (h : Related (InStep net) (GivenUp net) kept n s) :
    kept = decide (s.phase ≠ .closed) ∧ Selected net n.m_deserializer s.selected ∧ Queued net n s.frames := by
  rcases kept with _ | _
  · have hgiven : GivenUp net n s := h
    refine ⟨?_, hgiven.selected, hgiven.queued⟩
    rw [hgiven.phase]
    rfl
  · have hstep : InStep net n s := h
    refine ⟨?_, hstep.selected, hstep.queued⟩
    have hopen : s.phase ≠ .closed := by
      intro hclosed
      have := hstep.phase
      rw [hclosed] at this
      exact this
    exact (decide_eq_true hopen).symm

/-- **Segmentation**: two ways to cut a stream into `ReceiveMsgBytes` calls leave the same queue,
    the same counts and the same selection, and keep the peer alike. -/
theorem receiveAll_segmentation (net : Network) (use_legacy : Bool) (chunks chunks' : List Bytes)
    (h : chunks.flatten = chunks'.flatten) :
    ∃ n n' kept, receiveAll net (.new net use_legacy) chunks = some (n, kept) ∧
      receiveAll net (.new net use_legacy) chunks' = some (n', kept) ∧
      n.vRecvMsg = n'.vRecvMsg ∧ n.mapRecvBytesPerMsgCmd = n'.mapRecvBytesPerMsgCmd ∧
      n.m_deserializer.m_message_start_selected = n'.m_deserializer.m_message_start_selected ∧
      n.m_deserializer.m_active_message_start = n'.m_deserializer.m_active_message_start ∧
      n.m_deserializer.m_using_legacy_magic = n'.m_deserializer.m_using_legacy_magic := by
  obtain ⟨n, kept, hrun, hrel⟩ := receiveAll_spec net use_legacy chunks
  obtain ⟨n', _, hrun', hrel'⟩ := receiveAll_spec net use_legacy chunks'
  rw [← h] at hrel'
  obtain ⟨hkept, hsel, hq⟩ := related_spec hrel
  obtain ⟨hkept', hsel', hq'⟩ := related_spec hrel'
  refine ⟨n, n', kept, hrun, ?_, ?_, ?_, ?_, ?_, ?_⟩
  · rw [hrun', hkept', hkept]
  · rw [hq.messages, hq'.messages]
  · rw [hq.counted, hq'.counted]
  · rw [hsel.selected, hsel'.selected]
  · rw [hsel.active, hsel'.active]
  · rw [hsel.legacy, hsel'.legacy]

/-- The message starts of the main network. -/
def mainNetwork (acceptLegacyMagic : Bool) (hash256 : Bytes → Bytes) : Network where
  messageStartDefcoinMagic := [0xde, 0xfc, 0x01, 0x4e]
  messageStartLegacyMagic := [0xfb, 0xc0, 0xb6, 0xdb]
  acceptLegacyMagic := acceptLegacyMagic
  hash256 := hash256
  length_defcoin := rfl
  length_legacy := rfl

def zeroChecksums : Network := mainNetwork true fun _ => List.replicate 32 0

/-- A header of the legacy start, for a message without payload. -/
def legacyVerack : Bytes :=
  [0xfb, 0xc0, 0xb6, 0xdb, 0x76, 0x65, 0x72, 0x61, 0x63, 0x6b, 0, 0, 0, 0, 0, 0, 0, 0, 0, 0, 0, 0, 0, 0]

/-- A message, at once and in two pieces. -/
theorem receiveAll_segmentation_verack :
    ∃ n n' kept, receiveAll zeroChecksums (.new zeroChecksums false) [legacyVerack] = some (n, kept) ∧
      receiveAll zeroChecksums (.new zeroChecksums false) [legacyVerack.take 10, legacyVerack.drop 10] =
        some (n', kept) ∧
      n.vRecvMsg.length = 1 ∧ n.vRecvMsg = n'.vRecvMsg := by
  have hone : (receiveAll zeroChecksums (.new zeroChecksums false) [legacyVerack]).map
      (fun r => r.1.vRecvMsg.length) = some 1 := by
    decide +kernel
  obtain ⟨n, n', kept, hrun, hrun', hqueue, -⟩ := receiveAll_segmentation zeroChecksums false [legacyVerack]
    [legacyVerack.take 10, legacyVerack.drop 10] rfl
  rw [hrun] at hone
  exact ⟨n, n', kept, hrun, hrun', Option.some.inj hone, hqueue⟩

end Defcoin.Net
