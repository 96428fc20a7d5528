import Morcochain.NetMessage

/-!
# The messages of a stream

What a stream of bytes says, whoever wrote it: its complete messages, and what is left behind them unless a message is
refused for its size (`splitStream`). What `CNode::ReceiveMsgBytes` makes of the stream is compared with it.

* `splitStream_append` : a longer stream goes on where the shorter one ended.
* `receive_split` : **what the bytes of a stream leave of a connection**.
-/

set_option autoImplicit false

namespace Morcochain

open Codec

/-! ## Splitting a stream -/

/-- A message of a stream: its header and its data. -/
abbrev StreamMessage := CMessageHeader × Bytes

/-- What a stream begins with. -/
inductive StreamHead
  | incomplete
  | tooLarge
  | message (hdr : CMessageHeader) (data rest : Bytes)

/-- The first message of a stream. -/
def streamHead (stream : Bytes) : StreamHead :=
  match readMessageHeader stream with
  | none => .incomplete
  | some (hdr, rest) =>
    if hdr.nMessageSize > maxSize then .tooLarge
    else if rest.length < hdr.nMessageSize then .incomplete
    else .message hdr (rest.take hdr.nMessageSize) (rest.drop hdr.nMessageSize)

section Head

variable {stream : Bytes} {hdr : CMessageHeader} {data rest : Bytes}

theorem readBytes_some {k : Nat} {b : Bytes} (h : readBytes k stream = some (b, rest)) :
    stream = b ++ rest ∧ b.length = k := by
  unfold readBytes at h
  by_cases hlt : stream.length < k
  · rw [if_pos hlt] at h
    cases h
  · rw [if_neg hlt] at h
    obtain ⟨rfl, rfl⟩ := Prod.mk.inj (Option.some.inj h)
    exact ⟨(List.take_append_drop k stream).symm, by rw [List.length_take]; omega⟩

/-- A header takes its bytes off the stream. -/
theorem readMessageHeader_text (h : readMessageHeader stream = some (hdr, rest)) :
    ∃ text : Bytes, stream = text ++ rest ∧ text.length = headerSize := by
  obtain ⟨⟨a, s₁⟩, h₁, h⟩ := Option.bind_eq_some_iff.mp h
  obtain ⟨⟨b, s₂⟩, h₂, h⟩ := Option.bind_eq_some_iff.mp h
  obtain ⟨⟨c, s₃⟩, h₃, h⟩ := Option.bind_eq_some_iff.mp h
  obtain ⟨⟨d, s₄⟩, h₄, h⟩ := Option.bind_eq_some_iff.mp h
  obtain ⟨⟨c', s₃'⟩, h₃', hc⟩ := Option.bind_eq_some_iff.mp h₃
  obtain ⟨⟨d', s₄'⟩, h₄', hd⟩ := Option.bind_eq_some_iff.mp h₄
  cases h
  cases hc
  cases hd
  obtain ⟨rfl, ha⟩ := readBytes_some h₁
  obtain ⟨rfl, hb⟩ := readBytes_some h₂
  obtain ⟨rfl, hc⟩ := readBytes_some h₃'
  obtain ⟨rfl, hd⟩ := readBytes_some h₄'
  refine ⟨a ++ (b ++ (c' ++ d')), ?_, ?_⟩
  · simp only [List.append_assoc]
  · simp only [List.length_append, ha, hb, hc, hd]
    rfl

/-- So many bytes hold a header. -/
theorem reads_header_of_length {text : Bytes} (h : text.length = headerSize) :
    ∃ hdr, Reads readMessageHeader text hdr := by
  obtain ⟨a, b, c, d, rfl, ha, hb, hc, hd⟩ : ∃ a b c d : Bytes, text = a ++ (b ++ (c ++ (d ++ []))) ∧
      a.length = messageStartSize ∧ b.length = commandSize ∧ c.length = 4 ∧ d.length = 4 := by
    refine ⟨text.take 4, (text.drop 4).take 12, (text.drop 16).take 4, text.drop 20, ?_, ?_, ?_, ?_, ?_⟩
    · rw [List.append_nil, show text.drop 20 = (text.drop 16).drop 4 by rw [List.drop_drop], List.take_append_drop,
        show text.drop 16 = (text.drop 4).drop 12 by rw [List.drop_drop], List.take_append_drop, List.take_append_drop]
    all_goals
      simp only [List.length_take, List.length_drop, h]
      rfl
  exact ⟨⟨a, b, leNat c, leNat d⟩, (reads_bytes ha).bind ((reads_bytes hb).bind
    (((reads_bytes hc).map leNat).bind (((reads_bytes hd).map leNat).bind (.pure _))))⟩

/-- The bytes that a header was read from. -/
theorem readMessageHeader_some (h : readMessageHeader stream = some (hdr, rest)) :
    ∃ text : Bytes, stream = text ++ rest ∧ text.length = headerSize ∧ Reads readMessageHeader text hdr := by
  obtain ⟨text, rfl, htext⟩ := readMessageHeader_text h
  obtain ⟨hdr', hreads⟩ := reads_header_of_length htext
  obtain ⟨rfl, -⟩ := Prod.mk.inj (Option.some.inj ((hreads rest).symm.trans h))
  exact ⟨text, rfl, htext, hreads⟩

/-- A header is read as soon as its bytes are there. -/
theorem readMessageHeader_eq_none : readMessageHeader stream = none ↔ stream.length < headerSize := by
  constructor
  · intro h
    by_contra hlen
    have htext : (stream.take headerSize).length = headerSize := by
      rw [List.length_take]
      omega
    obtain ⟨hdr, hreads⟩ := reads_header_of_length htext
    have hsome := hreads (stream.drop headerSize)
    rw [List.take_append_drop, h] at hsome
    cases hsome
  · intro h
    cases hread : readMessageHeader stream with
    | none => rfl
    | some r =>
      obtain ⟨text, rfl, htext, -⟩ := readMessageHeader_some hread
      rw [List.length_append] at h
      omega

/-- What a stream begins with, when it holds a header. -/
theorem streamHead_of_header {text : Bytes} (hreads : Reads readMessageHeader text hdr) :
    streamHead (text ++ rest) =
      if hdr.nMessageSize > maxSize then .tooLarge
      else if rest.length < hdr.nMessageSize then .incomplete
      else .message hdr (rest.take hdr.nMessageSize) (rest.drop hdr.nMessageSize) := by
  unfold streamHead
  rw [hreads]

/-- A stream holds no header, or one. -/
theorem streamHead_cases (stream : Bytes) :
    (stream.length < headerSize ∧ streamHead stream = .incomplete) ∨
      ∃ text rest : Bytes, ∃ hdr, stream = text ++ rest ∧ text.length = headerSize ∧
        Reads readMessageHeader text hdr := by
  cases hread : readMessageHeader stream with
  | none =>
    left
    refine ⟨readMessageHeader_eq_none.mp hread, ?_⟩
    unfold streamHead
    rw [hread]
  | some r =>
    right
    obtain ⟨text, hstream, htext, hreads⟩ := readMessageHeader_some hread
    exact ⟨text, r.2, r.1, hstream, htext, hreads⟩

/-- A stream that begins with a message. -/
theorem streamHead_message (h : streamHead stream = .message hdr data rest) :
    ∃ text : Bytes, stream = text ++ (data ++ rest) ∧ text.length = headerSize ∧ Reads readMessageHeader text hdr ∧
      hdr.nMessageSize ≤ maxSize ∧ data.length = hdr.nMessageSize := by
  rcases streamHead_cases stream with ⟨-, hinc⟩ | ⟨text, bytes, hdr', rfl, htext, hreads⟩
  · cases hinc.symm.trans h
  · rw [streamHead_of_header hreads] at h
    by_cases hsize : hdr'.nMessageSize > maxSize
    · rw [if_pos hsize] at h
      cases h
    · rw [if_neg hsize] at h
      by_cases hlt : bytes.length < hdr'.nMessageSize
      · rw [if_pos hlt] at h
        cases h
      · rw [if_neg hlt] at h
        cases h
        refine ⟨text, ?_, htext, hreads, by omega, ?_⟩
        · rw [List.take_append_drop]
        · rw [List.length_take]
          omega

/-- A stream that begins with a message that is too large. -/
theorem streamHead_tooLarge (h : streamHead stream = .tooLarge) :
    ∃ text rest : Bytes, ∃ hdr, stream = text ++ rest ∧ text.length = headerSize ∧ Reads readMessageHeader text hdr ∧
      hdr.nMessageSize > maxSize := by
  rcases streamHead_cases stream with ⟨-, hinc⟩ | ⟨text, bytes, hdr, rfl, htext, hreads⟩
  · cases hinc.symm.trans h
  · refine ⟨text, bytes, hdr, rfl, htext, hreads, ?_⟩
    rw [streamHead_of_header hreads] at h
    by_contra hsize
    rw [if_neg hsize] at h
    by_cases hlt : bytes.length < hdr.nMessageSize
    · rw [if_pos hlt] at h
      cases h
    · rw [if_neg hlt] at h
      cases h

/-- A stream that begins with no complete message. -/
theorem streamHead_incomplete (h : streamHead stream = .incomplete) :
    stream.length < headerSize ∨
      ∃ text rest : Bytes, ∃ hdr, stream = text ++ rest ∧ text.length = headerSize ∧ Reads readMessageHeader text hdr ∧
        hdr.nMessageSize ≤ maxSize ∧ rest.length < hdr.nMessageSize := by
  rcases streamHead_cases stream with ⟨hlt, -⟩ | ⟨text, bytes, hdr, rfl, htext, hreads⟩
  · exact .inl hlt
  · refine .inr ⟨text, bytes, hdr, rfl, htext, hreads, ?_⟩
    rw [streamHead_of_header hreads] at h
    by_cases hsize : hdr.nMessageSize > maxSize
    · rw [if_pos hsize] at h
      cases h
    · rw [if_neg hsize] at h
      by_cases hlt : bytes.length < hdr.nMessageSize
      · exact ⟨by omega, hlt⟩
      · rw [if_neg hlt] at h
        cases h

/-- A message takes bytes off the stream. -/
theorem streamHead_length (h : streamHead stream = .message hdr data rest) : rest.length < stream.length := by
  obtain ⟨text, rfl, htext, -⟩ := streamHead_message h
  have hpos : 0 < headerSize := by decide
  rw [List.length_append, List.length_append]
  omega

end Head

/-- The complete messages of a stream, and what is left behind them; none where a message is too large. -/
def splitStream (stream : Bytes) : List StreamMessage × Option Bytes :=
  match _h : streamHead stream with
  | .incomplete => ([], some stream)
  | .tooLarge => ([], none)
  | .message hdr data rest => ((hdr, data) :: (splitStream rest).1, (splitStream rest).2)
termination_by stream.length
decreasing_by
  all_goals exact streamHead_length _h

section Split

variable {stream : Bytes}

theorem splitStream_incomplete (h : streamHead stream = .incomplete) : splitStream stream = ([], some stream) := by
  rw [splitStream]
  split
  · rfl
  · rename_i h'
    cases h.symm.trans h'
  · rename_i h'
    cases h.symm.trans h'

theorem splitStream_tooLarge (h : streamHead stream = .tooLarge) : splitStream stream = ([], none) := by
  rw [splitStream]
  split
  · rename_i h'
    cases h.symm.trans h'
  · rfl
  · rename_i h'
    cases h.symm.trans h'

theorem splitStream_message {hdr : CMessageHeader} {data rest : Bytes}
    (h : streamHead stream = .message hdr data rest) :
    splitStream stream = ((hdr, data) :: (splitStream rest).1, (splitStream rest).2) := by
  rw [splitStream]
  split
  · rename_i h'
    cases h.symm.trans h'
  · rename_i h'
    cases h.symm.trans h'
  · rename_i h'
    cases h.symm.trans h'
    rfl

theorem splitStream_nil : splitStream [] = ([], some []) := by
  refine splitStream_incomplete ?_
  unfold streamHead
  rw [readMessageHeader_eq_none.mpr (by decide)]

/-- A longer stream begins with the same message. -/
theorem streamHead_append {more : Bytes} {hdr : CMessageHeader} {data rest : Bytes}
    (h : streamHead stream = .message hdr data rest) :
    streamHead (stream ++ more) = .message hdr data (rest ++ more) := by
  obtain ⟨text, rfl, -, hreads, hsize, hdata⟩ := streamHead_message h
  rw [List.append_assoc, streamHead_of_header hreads, if_neg (by omega),
    if_neg (by rw [List.length_append, List.length_append]; omega), List.append_assoc, List.take_left' hdata,
    List.drop_left' hdata]

/-- A message that is too large is so in a longer stream. -/
theorem streamHead_append_tooLarge {more : Bytes} (h : streamHead stream = .tooLarge) :
    streamHead (stream ++ more) = .tooLarge := by
  obtain ⟨text, rest, hdr, rfl, -, hreads, hsize⟩ := streamHead_tooLarge h
  rw [List.append_assoc, streamHead_of_header hreads, if_pos hsize]

/-- **A longer stream**: the messages stay, and the bytes left behind them go on. -/
theorem splitStream_append {stream rest : Bytes} (h : (splitStream stream).2 = some rest) (more : Bytes) :
    splitStream (stream ++ more) =
      ((splitStream stream).1 ++ (splitStream (rest ++ more)).1, (splitStream (rest ++ more)).2) := by
  induction hn : stream.length using Nat.strong_induction_on generalizing stream with
  | _ n ih =>
    cases hhead : streamHead stream with
    | incomplete =>
      rw [splitStream_incomplete hhead] at h ⊢
      obtain rfl := Option.some.inj h
      rfl
    | tooLarge =>
      rw [splitStream_tooLarge hhead] at h
      cases h
    | message hdr data rest' =>
      rw [splitStream_message hhead] at h
      rw [splitStream_message hhead, splitStream_message (streamHead_append hhead),
        ih _ (hn ▸ streamHead_length hhead) h rfl]
      rfl

/-- A stream with a message that is too large has no messages behind it. -/
theorem splitStream_append_refused {stream : Bytes} (h : (splitStream stream).2 = none) (more : Bytes) :
    splitStream (stream ++ more) = splitStream stream := by
  induction hn : stream.length using Nat.strong_induction_on generalizing stream with
  | _ n ih =>
    cases hhead : streamHead stream with
    | incomplete =>
      rw [splitStream_incomplete hhead] at h
      cases h
    | tooLarge => rw [splitStream_tooLarge hhead, splitStream_tooLarge (streamHead_append_tooLarge hhead)]
    | message hdr data rest =>
      rw [splitStream_message hhead] at h
      rw [splitStream_message hhead, splitStream_message (streamHead_append hhead),
        ih _ (hn ▸ streamHead_length hhead) h rfl]

/-- The messages of a stream are the first ones of every longer stream. -/
theorem splitStream_mono {stream more : Bytes} (h : stream <+: more) :
    (splitStream stream).1 <+: (splitStream more).1 := by
  obtain ⟨bytes, rfl⟩ := h
  cases hrest : (splitStream stream).2 with
  | none => rw [splitStream_append_refused hrest]
  | some rest =>
    rw [splitStream_append hrest]
    exact List.prefix_append _ _

end Split

/-! ## What the bytes of a stream leave of a connection -/

section Receive

variable {pchMessageStart : Bytes}

/-- A message whose header is incomplete. -/
def headerMessage (pchMessageStart text : Bytes) : CNetMessage :=
  { CNetMessage.fresh pchMessageStart with
    hdrbuf := memcpy (List.replicate headerSize 0) 0 text
    nHdrPos := text.length }

/-- A message whose header is complete, and of whose data something is there. -/
def dataMessage (hdr : CMessageHeader) (data : Bytes) : CNetMessage where
  inData := true
  hdrbuf := []
  hdr := hdr
  nHdrPos := headerSize
  vRecv := data ++ List.replicate (hdr.nMessageSize - data.length) 0
  nDataPos := data.length

theorem complete_headerMessage {text : Bytes} : (headerMessage pchMessageStart text).complete = false := rfl

theorem complete_dataMessage {hdr : CMessageHeader} {data : Bytes} :
    (dataMessage hdr data).complete = decide (hdr.nMessageSize = data.length) := rfl

theorem ok_dataMessage {hdr : CMessageHeader} {data : Bytes} (h : data.length ≤ hdr.nMessageSize) :
    (dataMessage hdr data).Ok := by
  refine (CNetMessage.ok_data rfl).mpr ⟨?_, h⟩
  show (data ++ List.replicate (hdr.nMessageSize - data.length) 0).length = hdr.nMessageSize
  rw [List.length_append, List.length_replicate]
  omega

/-- A piece that the current message takes in one turn. -/
theorem receive_of_absorb {vRecvMsg before : List CNetMessage} {msg msg' : CNetMessage} {pch : Bytes} (hne : pch ≠ [])
    (hcur : currentMessage pchMessageStart vRecvMsg = (before, msg)) (h : msg.absorb pch = some (msg', pch.length)) :
    receiveMsgBytes pchMessageStart vRecvMsg pch = some (before ++ [msg']) :=
  Pieces.consume_of_turn hne (by rw [receiveTurn_eq hcur, h]; rfl)

/-- A part of a header, which is the first thing of a stream. -/
theorem receive_partialHeader {text : Bytes} (hne : text ≠ []) (h : text.length < headerSize) :
    receiveMsgBytes pchMessageStart [] text = some [headerMessage pchMessageStart text] := by
  refine receive_of_absorb hne currentMessage_nil ((CNetMessage.absorb_of_lt h).trans ?_)
  rw [CNetMessage.advance_header rfl]
  unfold headerMessage CNetMessage.fresh
  rw [Nat.zero_add]

/-- **A header**, which is the first thing of a stream. -/
theorem receive_header {text : Bytes} {hdr : CMessageHeader} (h : text.length = headerSize)
    (hreads : Reads readMessageHeader text hdr) :
    receiveMsgBytes pchMessageStart [] text =
      if hdr.nMessageSize > maxSize then none else some [dataMessage hdr []] := by
  have hne : text ≠ [] := by
    rintro rfl
    exact absurd h (by decide)
  have hbuf : memcpy (List.replicate headerSize 0) 0 (text.take headerSize) = text := by
    unfold memcpy
    rw [← h, List.take_length, Nat.zero_add, h, List.drop_replicate, Nat.sub_self, List.replicate_zero, List.append_nil,
      List.take_zero, List.nil_append]
  have hread : readMessageHeader text = some (hdr, []) := by
    have hsome := hreads []
    rwa [List.append_nil] at hsome
  have habsorb : (CNetMessage.fresh pchMessageStart).absorb text =
      if hdr.nMessageSize > maxSize then none else some (dataMessage hdr [], text.length) := by
    rw [CNetMessage.absorb_header rfl]
    unfold CNetMessage.readHeader CNetMessage.fresh
    dsimp only
    rw [Nat.sub_zero, h, Nat.min_self, Nat.zero_add, if_neg (Nat.lt_irrefl _), hbuf, hread]
    dsimp only
    rw [List.take_nil]
    rfl
  by_cases hsize : hdr.nMessageSize > maxSize
  · rw [if_pos hsize] at habsorb ⊢
    exact Pieces.consume_of_stop hne (by rw [receiveTurn_eq currentMessage_nil, habsorb]; rfl)
  · rw [if_neg hsize] at habsorb ⊢
    exact receive_of_absorb hne currentMessage_nil habsorb

/-- **Data** behind a header. -/
theorem receive_data {hdr : CMessageHeader} {data : Bytes} (h : data.length ≤ hdr.nMessageSize) :
    receiveMsgBytes pchMessageStart [dataMessage hdr []] data = some [dataMessage hdr data] := by
  by_cases hne : data = []
  · subst hne
    rfl
  · have hpos := List.length_pos_iff.mpr hne
    have hcur : currentMessage pchMessageStart [dataMessage hdr []] = ([], dataMessage hdr []) := by
      refine (currentMessage_of_incomplete ?_ : currentMessage pchMessageStart ([] ++ [dataMessage hdr []]) = _)
      rw [complete_dataMessage, List.length_nil, decide_eq_false_iff_not]
      omega
    refine receive_of_absorb hne hcur ?_
    rw [CNetMessage.absorb_data rfl]
    unfold CNetMessage.readData dataMessage memcpy
    dsimp only
    rw [List.length_nil, Nat.sub_zero, Nat.min_eq_right h, List.take_length, Nat.zero_add, List.take_zero,
      List.nil_append, List.nil_append, List.drop_replicate]

/-- Complete messages stay in front of what arrives. -/
theorem currentMessage_append {done : List CNetMessage} (hdone : ∀ msg ∈ done, msg.complete = true)
    (vRecvMsg : List CNetMessage) :
    currentMessage pchMessageStart (done ++ vRecvMsg) =
      (done ++ (currentMessage pchMessageStart vRecvMsg).1, (currentMessage pchMessageStart vRecvMsg).2) := by
  rcases List.eq_nil_or_concat vRecvMsg with rfl | ⟨before, msg, rfl⟩
  · rw [List.append_nil, currentMessage_nil, List.append_nil]
    rcases List.eq_nil_or_concat done with rfl | ⟨before, msg, rfl⟩
    · rfl
    · rw [List.concat_eq_append] at hdone ⊢
      exact currentMessage_of_complete (hdone msg (List.mem_append_right _ List.mem_cons_self))
  · rw [List.concat_eq_append, ← List.append_assoc]
    cases hc : msg.complete with
    | true => rw [currentMessage_of_complete hc, currentMessage_of_complete hc, List.append_assoc]
    | false => rw [currentMessage_of_incomplete hc, currentMessage_of_incomplete hc]

theorem foldlM_receiveByte_append {done : List CNetMessage} (hdone : ∀ msg ∈ done, msg.complete = true) (pch : Bytes)
    (vRecvMsg : List CNetMessage) :
    pch.foldlM (receiveByte pchMessageStart) (done ++ vRecvMsg) =
      (pch.foldlM (receiveByte pchMessageStart) vRecvMsg).map (done ++ ·) := by
  induction pch generalizing vRecvMsg with
  | nil => rfl
  | cons b pch ih =>
    have hbyte : receiveByte pchMessageStart (done ++ vRecvMsg) b =
        (receiveByte pchMessageStart vRecvMsg b).map (done ++ ·) := by
      unfold receiveByte Pieces.takeOne
      rw [receiveTurn_eq (currentMessage_append hdone vRecvMsg), receiveTurn_eq rfl, Option.map_map, Option.map_map,
        Option.map_map]
      refine congrArg (fun f => Option.map f _) (funext fun r => ?_)
      exact List.append_assoc _ _ _
    rw [List.foldlM_cons, List.foldlM_cons, hbyte]
    cases receiveByte pchMessageStart vRecvMsg b with
    | none => rfl
    | some vRecvMsg' => exact ih vRecvMsg'

/-- What arrives behind complete messages. -/
theorem receive_behind {done vRecvMsg : List CNetMessage} (hdone : ∀ msg ∈ done, msg.complete = true)
    (hok : LastOk vRecvMsg) (hok' : LastOk (done ++ vRecvMsg)) (pch : Bytes) :
    receiveMsgBytes pchMessageStart (done ++ vRecvMsg) pch =
      (receiveMsgBytes pchMessageStart vRecvMsg pch).map (done ++ ·) := by
  rw [receiveMsgBytes_eq hok', receiveMsgBytes_eq hok]
  exact foldlM_receiveByte_append hdone pch vRecvMsg

/-- The messages that a stream leaves. -/
def received (msgs : List StreamMessage) : List CNetMessage := msgs.map fun m => dataMessage m.1 m.2

/-- Every message of a stream has the data that its header announces, and no more than is allowed. -/
theorem splitStream_sizes (stream : Bytes) :
    ∀ m ∈ (splitStream stream).1, m.1.nMessageSize = m.2.length ∧ m.1.nMessageSize ≤ maxSize := by
  induction hn : stream.length using Nat.strong_induction_on generalizing stream with
  | _ n ih =>
    cases hhead : streamHead stream with
    | incomplete =>
      rw [splitStream_incomplete hhead]
      exact List.forall_mem_nil _
    | tooLarge =>
      rw [splitStream_tooLarge hhead]
      exact List.forall_mem_nil _
    | message hdr data rest =>
      obtain ⟨-, -, -, -, hsize, hdata⟩ := streamHead_message hhead
      rw [splitStream_message hhead]
      exact List.forall_mem_cons.mpr ⟨⟨hdata.symm, hsize⟩, ih _ (hn ▸ streamHead_length hhead) rest rfl⟩

theorem received_complete {msgs : List StreamMessage} (h : ∀ m ∈ msgs, m.1.nMessageSize = m.2.length) :
    ∀ msg ∈ received msgs, msg.complete = true := by
  intro msg hmem
  obtain ⟨m, hm, rfl⟩ := List.mem_map.mp hmem
  rw [complete_dataMessage, decide_eq_true (h m hm)]

/-- What is left behind the messages of a stream: at most one message, which is incomplete. -/
structure Tail (pchMessageStart rest : Bytes) (tail : List CNetMessage) : Prop where
  receive : receiveMsgBytes pchMessageStart [] rest = some tail
  incomplete : ∀ msg ∈ tail, msg.complete = false

theorem Tail.lastOk {rest : Bytes} {tail : List CNetMessage} (h : Tail pchMessageStart rest tail) : LastOk tail :=
  receiveMsgBytes_lastOk lastOk_nil h.receive

theorem Tail.lastOk_append {rest : Bytes} {tail done : List CNetMessage} (h : Tail pchMessageStart rest tail)
    (hdone : LastOk done) : LastOk (done ++ tail) := by
  rcases List.eq_nil_or_concat tail with rfl | ⟨before, msg, rfl⟩
  · rwa [List.append_nil]
  · have htail := h.lastOk
    rw [List.concat_eq_append] at htail ⊢
    rw [← List.append_assoc]
    exact Morcochain.lastOk_append (htail msg List.getLast?_concat)

theorem lastOk_received {msgs : List StreamMessage} (h : ∀ m ∈ msgs, m.1.nMessageSize = m.2.length) :
    LastOk (received msgs) := by
  intro msg hmsg
  obtain ⟨m, hm, rfl⟩ := List.mem_map.mp (List.mem_of_getLast? hmsg)
  exact ok_dataMessage (h m hm).ge

/-- A stream without a complete message, none of which is too large. -/
theorem tail_of_incomplete (pchMessageStart : Bytes) {stream : Bytes} (h : streamHead stream = .incomplete) :
    ∃ tail, Tail pchMessageStart stream tail := by
  by_cases hne : stream = []
  · exact ⟨[], hne ▸ rfl, List.forall_mem_nil _⟩
  rcases streamHead_incomplete h with hlt | ⟨text, rest, hdr, rfl, htext, hreads, hsize, hlt⟩
  · exact ⟨_, receive_partialHeader hne hlt, List.forall_mem_singleton.mpr complete_headerMessage⟩
  · refine ⟨[dataMessage hdr rest], ?_, List.forall_mem_singleton.mpr ?_⟩
    · rw [receive_append lastOk_nil, receive_header htext hreads, if_neg (by omega)]
      exact receive_data hlt.le
    · rw [complete_dataMessage, decide_eq_false_iff_not]
      omega

/-- A stream that begins with a message that is too large is refused. -/
theorem receive_tooLarge {stream : Bytes} (h : streamHead stream = .tooLarge) :
    receiveMsgBytes pchMessageStart [] stream = none := by
  obtain ⟨text, rest, hdr, rfl, htext, hreads, hsize⟩ := streamHead_tooLarge h
  rw [receive_append lastOk_nil, receive_header htext hreads, if_pos hsize]
  rfl

/-- **What the bytes of a stream leave of a connection.** -/
theorem receive_split (pchMessageStart stream : Bytes) :
    ((splitStream stream).2 = none → receiveMsgBytes pchMessageStart [] stream = none) ∧
      ∀ rest, (splitStream stream).2 = some rest → ∃ tail, Tail pchMessageStart rest tail ∧
        receiveMsgBytes pchMessageStart [] stream = some (received (splitStream stream).1 ++ tail) := by
  induction hn : stream.length using Nat.strong_induction_on generalizing stream with
  | _ n ih =>
    cases hhead : streamHead stream with
    | incomplete =>
      rw [splitStream_incomplete hhead]
      refine ⟨fun h => (by cases h), fun rest h => ?_⟩
      obtain rfl := Option.some.inj h
      obtain ⟨tail, htail⟩ := tail_of_incomplete pchMessageStart hhead
      exact ⟨tail, htail, htail.receive⟩
    | tooLarge =>
      rw [splitStream_tooLarge hhead]
      exact ⟨fun _ => receive_tooLarge hhead, fun rest h => (by cases h)⟩
    | message hdr data rest =>
      have hrest := ih _ (hn ▸ streamHead_length hhead) rest rfl
      obtain ⟨text, rfl, htext, hreads, hsize, hdata⟩ := streamHead_message hhead
      rw [splitStream_message hhead]
      -- the message, and then the stream behind it
      have hfirst : receiveMsgBytes pchMessageStart [] (text ++ (data ++ rest)) =
          (receiveMsgBytes pchMessageStart [] rest).map (dataMessage hdr data :: ·) := by
        have hcomplete : ∀ msg ∈ [dataMessage hdr data], msg.complete = true :=
          List.forall_mem_singleton.mpr (by rw [complete_dataMessage, decide_eq_true hdata.symm])
        have hok : LastOk ([dataMessage hdr data] ++ []) := lastOk_singleton (ok_dataMessage hdata.le)
        have hok₀ : LastOk [dataMessage hdr []] := lastOk_singleton (ok_dataMessage (Nat.zero_le _))
        rw [receive_append lastOk_nil, receive_header htext hreads, if_neg (by omega), Option.bind_some,
          receive_append hok₀, receive_data hdata.le, Option.bind_some]
        exact receive_behind hcomplete lastOk_nil hok rest
      rw [hfirst]
      refine ⟨fun h => by rw [hrest.1 h]; rfl, fun rest' h => ?_⟩
      obtain ⟨tail, htail, hreceive⟩ := hrest.2 rest' h
      exact ⟨tail, htail, by rw [hreceive]; rfl⟩

end Receive

end Morcochain
