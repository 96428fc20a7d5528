import Morcochain.NetPeer

/-!
# From one peer to the other

A message is framed, queued and sent in pieces (`CNode::PushMessage`, `EndMessage`, `SocketSendData`; `net.h`,
`net.cpp`). Its bytes are in flight, and the other side receives them in other pieces. `Link` is both sides and what is
between them.

* `splitStream_frames` : the messages of the frames of a list of messages are those of the list.
* `SendQueue.inv_socketSendData` : what a call of `SocketSendData` puts on the wire, whatever `send` answers.
* `Link.inv_run` : how the sides stand to each other after any steps.
* `Link.link_runs` : **no assertion fails, nothing is lost, doubled or put in another order**.
-/

set_option autoImplicit false

namespace Morcochain

open Codec

/-! ## The frame of a message -/

/-- A message that `PushMessage` is called with: a command that fits its field and is printable, and data of a size that
the other side takes. -/
structure Pushable (command data : Bytes) : Prop where
  length : command.length ≤ commandSize
  printable : ∀ b ∈ command, 0x20 ≤ b ∧ b ≤ 0x7e
  size : data.length ≤ maxSize

/-- The header that a message is sent with. -/
def sentHeader (cr : Crypto) (pchMessageStart command data : Bytes) : CMessageHeader where
  pchMessageStart := pchMessageStart
  pchCommand := strncpy commandSize command
  nMessageSize := data.length
  nChecksum := messageChecksum cr data

section Frame

variable {cr : Crypto} {pchMessageStart command data : Bytes}

theorem length_strncpy (n : Nat) (s : Bytes) : (strncpy n s).length = n := by
  unfold strncpy
  rw [List.length_append, List.length_take, List.length_replicate]
  omega

theorem length_write {hdr : CMessageHeader} (hstart : hdr.pchMessageStart.length = messageStartSize)
    (hcommand : hdr.pchCommand.length = commandSize) : hdr.write.length = headerSize := by
  unfold CMessageHeader.write
  simp only [List.length_append, length_writeLE, hstart, hcommand]
  rfl

/-- A header that is written is read. -/
theorem reads_header {hdr : CMessageHeader} (hstart : hdr.pchMessageStart.length = messageStartSize)
    (hcommand : hdr.pchCommand.length = commandSize) (hsize : hdr.nMessageSize < 256 ^ 4)
    (hchecksum : hdr.nChecksum < 256 ^ 4) : Reads readMessageHeader hdr.write hdr := by
  have h : Reads readMessageHeader (hdr.pchMessageStart ++ (hdr.pchCommand ++ (writeLE 4 hdr.nMessageSize ++
      (writeLE 4 hdr.nChecksum ++ [])))) hdr :=
    (reads_bytes hstart).bind ((reads_bytes hcommand).bind ((reads_uint hsize).bind
        ((reads_uint hchecksum).bind (.pure _))))
  rwa [List.append_nil] at h

/-- What is copied over a part of the same length. -/
theorem memcpy_replace {a b c src : Bytes} {pos : Nat} (hpos : a.length = pos) (hlen : src.length = b.length) :
    memcpy (a ++ (b ++ c)) pos src = a ++ (src ++ c) := by
  unfold memcpy
  rw [List.take_left' hpos, ← List.drop_drop, List.drop_left' hpos, hlen, List.drop_left' rfl, List.append_assoc]

/-- `EndMessage` puts the size and the checksum where the header has room for them. -/
theorem endMessage_eq (cr : Crypto) (data : Bytes) {before x y : Bytes} (hbefore : before.length = messageSizeOffset)
    (hx : x.length = 4)
    (hy : y.length = 4) :
    endMessage cr (before ++ (x ++ (y ++ data))) =
      before ++ (writeLE 4 data.length ++ (writeLE 4 (messageChecksum cr data) ++ data)) := by
  have hlen : (before ++ (x ++ (y ++ data))).length - headerSize = data.length := by
    simp only [List.length_append, hbefore, hx, hy]
    unfold messageSizeOffset headerSize
    omega
  have hsize : memcpy (before ++ (x ++ (y ++ data))) messageSizeOffset (writeLE 4 data.length) =
      (before ++ writeLE 4 data.length) ++ (y ++ data) := by
    rw [memcpy_replace hbefore (by rw [length_writeLE, hx]), List.append_assoc]
  have hchecksum : (before ++ writeLE 4 data.length).length = checksumOffset := by
    rw [List.length_append, hbefore, length_writeLE]
    rfl
  have hdrop : ((before ++ writeLE 4 data.length) ++ (y ++ data)).drop headerSize = data := by
    rw [← List.append_assoc]
    refine List.drop_left' ?_
    rw [List.length_append, hchecksum, hy]
    rfl
  unfold endMessage
  dsimp only
  rw [hlen, hsize, hdrop, memcpy_replace hchecksum (by rw [length_writeLE, hy]), List.append_assoc]

/-- The bytes of a message: its header and its data. -/
theorem frame_eq (hstart : pchMessageStart.length = messageStartSize) :
    frame cr pchMessageStart command data = (sentHeader cr pchMessageStart command data).write ++ data := by
  have hbefore : (pchMessageStart ++ strncpy commandSize command).length = messageSizeOffset := by
    rw [List.length_append, hstart, length_strncpy]
    rfl
  have hend := endMessage_eq cr data hbefore (length_writeLE 4 0) (length_writeLE 4 0)
  unfold frame CMessageHeader.ofCommand CMessageHeader.write sentHeader
  simp only [List.append_assoc] at hend ⊢
  exact hend

theorem length_frame (hstart : pchMessageStart.length = messageStartSize) :
    (frame cr pchMessageStart command data).length = headerSize + data.length := by
  rw [frame_eq hstart, List.length_append, length_write hstart (length_strncpy _ _)]

/-- The first message of a stream that begins with a frame. -/
theorem streamHead_frame (hstart : pchMessageStart.length = messageStartSize) (h : Pushable command data)
    (rest : Bytes) :
    streamHead (frame cr pchMessageStart command data ++ rest) =
      .message (sentHeader cr pchMessageStart command data) data rest := by
  have hmax : maxSize < 256 ^ 4 := by decide
  have hreads : Reads readMessageHeader (sentHeader cr pchMessageStart command data).write
      (sentHeader cr pchMessageStart command data) :=
    reads_header hstart (length_strncpy _ _) (h.size.trans_lt hmax) (Nat.mod_lt _ (by decide))
  have hsize : (sentHeader cr pchMessageStart command data).nMessageSize = data.length := rfl
  rw [frame_eq hstart, List.append_assoc, streamHead_of_header hreads, hsize, if_neg (by have := h.size; omega),
    if_neg (by rw [List.length_append]; omega), List.take_left, List.drop_left]

theorem validCommand_strncpy (h : Pushable command data) :
    CMessageHeader.validCommand (strncpy commandSize command) = true := by
  have hzeros (k : Nat) : CMessageHeader.validCommand (List.replicate k 0) = true := by
    cases k with
    | zero => rfl
    | succ k =>
      rw [List.replicate_succ, CMessageHeader.validCommand, if_pos rfl]
      exact List.all_eq_true.mpr fun b hb => decide_eq_true (List.eq_of_mem_replicate hb)
  unfold strncpy
  rw [List.take_of_length_le h.length]
  generalize commandSize - command.length = k
  have hprintable := h.printable
  clear h
  induction command with
  | nil => exact hzeros k
  | cons b command ih =>
    obtain ⟨⟨hlow, hhigh⟩, hrest⟩ := List.forall_mem_cons.mp hprintable
    have hb : b ≠ 0 := by
      rintro rfl
      exact absurd hlow (by decide)
    rw [List.cons_append, CMessageHeader.validCommand, if_neg hb, if_neg]
    · exact ih hrest
    · rintro (hlt | hgt)
      · exact absurd hlow (UInt8.not_le.mpr hlt)
      · exact absurd hhigh (UInt8.not_le.mpr hgt)

/-- The command of a message that was sent. -/
theorem getCommand_sentHeader (h : Pushable command data) :
    (sentHeader cr pchMessageStart command data).getCommand = command := by
  have hne : ∀ b ∈ command, b ≠ 0 := by
    rintro b hb rfl
    exact absurd (h.printable 0 hb).1 (by decide)
  have hlength := h.length
  show (if (strncpy commandSize command).getD (commandSize - 1) 0 = 0 then _ else strncpy commandSize command) = _
  show (if _ then (strncpy commandSize command).takeWhile (· ≠ 0) else _) = _
  unfold strncpy
  rw [List.take_of_length_le h.length]
  by_cases hfull : command.length = commandSize
  · rw [hfull, Nat.sub_self, List.replicate_zero, List.append_nil, if_neg]
    rw [List.getD_eq_getElem command 0 (show commandSize - 1 < command.length by rw [hfull]; decide)]
    exact hne _ (List.getElem_mem _)
  · have hpos : commandSize - command.length = (commandSize - 1 - command.length) + 1 := by omega
    rw [if_pos]
    · rw [List.takeWhile_append_of_pos (by simpa using hne), hpos, List.replicate_succ,
        List.takeWhile_cons_of_neg (by simp), List.append_nil]
    · rw [List.getD_append_right _ _ _ _ (by omega), List.getD_replicate _ (by omega)]

/-- A message that was sent is good where it arrives. -/
theorem isGood_sentHeader (h : Pushable command data) :
    isGood cr pchMessageStart (sentHeader cr pchMessageStart command data, data) = true := by
  unfold isGood CMessageHeader.isValid
  simp only [Bool.and_eq_true, decide_eq_true_eq]
  exact ⟨⟨⟨rfl, validCommand_strncpy h⟩, h.size⟩, rfl⟩

/-- The bytes of messages. -/
def frames (cr : Crypto) (pchMessageStart : Bytes) (msgs : List (Bytes × Bytes)) : Bytes :=
  msgs.flatMap fun m => frame cr pchMessageStart m.1 m.2

/-- **The messages of the frames** of messages are these. -/
theorem splitStream_frames (cr : Crypto) (hstart : pchMessageStart.length = messageStartSize)
    {msgs : List (Bytes × Bytes)}
    (h : ∀ m ∈ msgs, Pushable m.1 m.2) :
    splitStream (frames cr pchMessageStart msgs) =
      (msgs.map fun m => (sentHeader cr pchMessageStart m.1 m.2, m.2), some []) := by
  induction msgs with
  | nil => exact splitStream_nil
  | cons m msgs ih =>
    obtain ⟨hm, hmsgs⟩ := List.forall_mem_cons.mp h
    show splitStream (frame cr pchMessageStart m.1 m.2 ++ frames cr pchMessageStart msgs) = _
    rw [splitStream_message (streamHead_frame hstart hm _), ih hmsgs]
    rfl

theorem accepted_frames (cr : Crypto) (hstart : pchMessageStart.length = messageStartSize) {msgs : List (Bytes × Bytes)}
    (h : ∀ m ∈ msgs, Pushable m.1 m.2) :
    accepted cr pchMessageStart (splitStream (frames cr pchMessageStart msgs)).1 = msgs := by
  rw [splitStream_frames cr hstart h]
  have hwell : ∀ m ∈ msgs.map fun m => (sentHeader cr pchMessageStart m.1 m.2, m.2),
      startsWell pchMessageStart m = true := by
    intro m hm
    obtain ⟨m, -, rfl⟩ := List.mem_map.mp hm
    exact decide_eq_true rfl
  have hgood : ∀ m ∈ msgs.map fun m => (sentHeader cr pchMessageStart m.1 m.2, m.2),
      isGood cr pchMessageStart m = true := by
    intro m hm
    obtain ⟨m', hm', rfl⟩ := List.mem_map.mp hm
    exact isGood_sentHeader (h m' hm')
  unfold accepted
  rw [List.takeWhile_eq_self_iff.mpr hwell, List.filter_eq_self.mpr hgood, List.map_map]
  refine (List.map_congr_left fun m hm => ?_).trans (List.map_id msgs)
  show ((sentHeader cr pchMessageStart m.1 m.2).getCommand, m.2) = m
  rw [getCommand_sentHeader (h m hm)]

end Frame

/-! ## The sending side -/

/-- What `send` answers. -/
inductive SendResult
  /-- It took a byte, and so many more if there were. -/
  | sent (n : Nat)
  /-- It took nothing for now. -/
  | again
  | error
deriving DecidableEq, Repr

/-- A peer, as far as its sending side goes. -/
structure SendQueue where
  /-- `hSocket` is valid. -/
  hSocket : Bool
  ssSend : Bytes
  vSendMsg : List Bytes
  /-- Offset inside the first message. -/
  nSendOffset : Nat
  /-- Total size of the messages. -/
  nSendSize : Nat
deriving DecidableEq, Repr

namespace SendQueue

/-- A new peer. -/
def connected : SendQueue where
  hSocket := true
  ssSend := []
  vSendMsg := []
  nSendOffset := 0
  nSendSize := 0

/-- The loop of `SocketSendData`, whose `send` answers as listed: the queue, from the message on that the loop has come
to, and the bytes that were sent. None where an assertion fails. -/
def sendLoop (results : List SendResult) (pnode : SendQueue) : Option (SendQueue × Bytes) :=
  match pnode.vSendMsg with
  | [] => some (pnode, [])
  | data :: vSendMsg =>
    if ¬ data.length > pnode.nSendOffset then none
    -- there is no socket: an error
    else if !pnode.hSocket then some (pnode, [])
    else
      match results with
      | [] => some (pnode, [])
      | .again :: _ => some (pnode, [])
      | .error :: _ => some ({ pnode with hSocket := false }, [])
      | .sent n :: results =>
        let nBytes := min (n + 1) (data.length - pnode.nSendOffset)
        let bytes := (data.drop pnode.nSendOffset).take nBytes
        if pnode.nSendOffset + nBytes = data.length then
          (sendLoop results { pnode with
            vSendMsg := vSendMsg
            nSendOffset := 0
            nSendSize := pnode.nSendSize - data.length }).map fun r => (r.1, bytes ++ r.2)
        -- could not send full message; stop sending more
        else some ({ pnode with nSendOffset := pnode.nSendOffset + nBytes }, bytes)

/-- `SocketSendData`. -/
def socketSendData (results : List SendResult) (pnode : SendQueue) : Option (SendQueue × Bytes) :=
  (sendLoop results pnode).bind fun r =>
    if r.1.vSendMsg = [] ∧ ¬ (r.1.nSendOffset = 0 ∧ r.1.nSendSize = 0) then none else some r

/-- `PushMessage` : `BeginMessage`, the values of the message and `EndMessage`. -/
def pushMessage (cr : Crypto) (pchMessageStart pszCommand payload : Bytes) (results : List SendResult)
    (pnode : SendQueue) : Option (SendQueue × Bytes) :=
  if pnode.ssSend ≠ [] then none
  else
    let ssSend := (CMessageHeader.ofCommand pchMessageStart pszCommand 0).write ++ payload
    if ssSend.length < checksumOffset + 4 then none
    else
      let data := endMessage cr ssSend
      let pnode' := { pnode with
        ssSend := []
        vSendMsg := pnode.vSendMsg ++ [data]
        nSendSize := pnode.nSendSize + data.length }
      -- if write queue empty, attempt "optimistic write"
      if pnode.vSendMsg = [] then socketSendData results pnode' else some (pnode', [])

/-- The bytes that are still to be sent. -/
def remaining (pnode : SendQueue) : Bytes := pnode.vSendMsg.flatten.drop pnode.nSendOffset

/-- What holds of the queue between calls. -/
structure Inv (pnode : SendQueue) : Prop where
  ssSend : pnode.ssSend = []
  offset : ∀ data ∈ pnode.vSendMsg.head?, pnode.nSendOffset < data.length
  offset_nil : pnode.vSendMsg = [] → pnode.nSendOffset = 0
  nonempty : ∀ data ∈ pnode.vSendMsg, data ≠ []
  size : pnode.nSendSize = pnode.vSendMsg.flatten.length

section Sending

variable {pnode : SendQueue}

theorem inv_connected : (connected).Inv :=
  ⟨rfl, fun _ h => (by cases h), fun _ => rfl, List.forall_mem_nil _, rfl⟩

/-- What a call has done to the queue. -/
structure Sends (pnode pnode' : SendQueue) (bytes : Bytes) : Prop where
  inv : pnode'.Inv
  remaining : pnode.remaining = bytes ++ pnode'.remaining
  closed : pnode.hSocket = false → pnode'.hSocket = false ∧ bytes = []

/-- The next message, once one is sent in full. -/
theorem Inv.next {data : Bytes} {vSendMsg : List Bytes} (h : pnode.Inv) (hqueue : pnode.vSendMsg = data :: vSendMsg) :
    { pnode with vSendMsg := vSendMsg, nSendOffset := 0, nSendSize := pnode.nSendSize - data.length }.Inv := by
  have hnonempty := h.nonempty
  rw [hqueue] at hnonempty
  have hrest := (List.forall_mem_cons.mp hnonempty).2
  refine ⟨h.ssSend, fun d hd => ?_, fun _ => rfl, hrest, ?_⟩
  · exact List.length_pos_iff.mpr (hrest d (List.mem_of_head? hd))
  · show pnode.nSendSize - data.length = vSendMsg.flatten.length
    rw [h.size, hqueue, List.flatten_cons, List.length_append, Nat.add_sub_cancel_left]

/-- A call that sends nothing. -/
theorem Inv.sends_nothing (h : pnode.Inv) : Sends pnode pnode [] := ⟨h, rfl, fun hclosed => ⟨hclosed, rfl⟩⟩

/-- A queue whose socket is closed. -/
theorem Inv.closed (h : pnode.Inv) : { pnode with hSocket := false }.Inv :=
  ⟨h.ssSend, h.offset, h.offset_nil, h.nonempty, h.size⟩

/-- Bytes of the first message, but not all. -/
theorem Inv.part {data : Bytes} {vSendMsg : List Bytes} (h : pnode.Inv) (hqueue : pnode.vSendMsg = data :: vSendMsg)
    (hsocket : pnode.hSocket = true) {nBytes : Nat} (hlt : pnode.nSendOffset + nBytes < data.length) :
    Sends pnode { pnode with nSendOffset := pnode.nSendOffset + nBytes }
      ((data.drop pnode.nSendOffset).take nBytes) where
  inv := by
    refine ⟨h.ssSend, fun d hd => ?_, fun hnil => ?_, h.nonempty, h.size⟩
    · have hhead : pnode.vSendMsg.head? = some d := hd
      rw [hqueue] at hhead
      exact Option.some.inj hhead ▸ hlt
    · cases hqueue.symm.trans hnil
  remaining := by
    unfold SendQueue.remaining
    dsimp only
    rw [hqueue, List.flatten_cons, List.drop_append_of_le_length (by omega), List.drop_append_of_le_length (by omega),
      ← List.append_assoc, ← List.drop_drop, List.take_append_drop]
  closed hclosed := by cases hclosed.symm.trans hsocket

/-- The rest of the first message, and then what is sent of the others. -/
theorem sends_whole {data : Bytes} {vSendMsg : List Bytes} (hqueue : pnode.vSendMsg = data :: vSendMsg)
    (hsocket : pnode.hSocket = true) {nBytes : Nat} (hall : pnode.nSendOffset + nBytes = data.length)
    {pnode' : SendQueue}
    {bytes : Bytes} (hsends : Sends { pnode with
      vSendMsg := vSendMsg, nSendOffset := 0, nSendSize := pnode.nSendSize - data.length } pnode' bytes) :
    Sends pnode pnode' ((data.drop pnode.nSendOffset).take nBytes ++ bytes) where
  inv := hsends.inv
  remaining := by
    have hrest : vSendMsg.flatten.drop 0 = bytes ++ pnode'.remaining := hsends.remaining
    unfold SendQueue.remaining at hrest ⊢
    rw [hqueue, List.flatten_cons, List.drop_append_of_le_length (by omega), List.append_assoc, ← hrest, List.drop_zero,
      List.take_of_length_le (by rw [List.length_drop]; omega)]
  closed hclosed := by cases hclosed.symm.trans hsocket

/-- **What the loop sends**, whatever `send` answers. -/
theorem inv_sendLoop (results : List SendResult) (h : pnode.Inv) :
    ∃ pnode' bytes, sendLoop results pnode = some (pnode', bytes) ∧ Sends pnode pnode' bytes ∧
      (SendResult.error ∉ results → pnode'.hSocket = pnode.hSocket) := by
  induction results generalizing pnode with
  | nil =>
    refine ⟨pnode, [], ?_, h.sends_nothing, fun _ => rfl⟩
    unfold sendLoop
    cases hqueue : pnode.vSendMsg with
    | nil => rfl
    | cons data vSendMsg =>
      have hoffset := h.offset data (by rw [hqueue]; rfl)
      dsimp only
      rw [if_neg (not_not.mpr hoffset)]
      cases pnode.hSocket <;> rfl
  | cons r results ih =>
    unfold sendLoop
    cases hqueue : pnode.vSendMsg with
    | nil => exact ⟨pnode, [], rfl, h.sends_nothing, fun _ => rfl⟩
    | cons data vSendMsg =>
      have hoffset := h.offset data (by rw [hqueue]; rfl)
      dsimp only
      rw [if_neg (not_not.mpr hoffset)]
      cases hsocket : pnode.hSocket with
      | false => exact ⟨pnode, [], rfl, h.sends_nothing, fun _ => hsocket⟩
      | true =>
        rw [if_neg (show ¬ (!true) = true from Bool.false_ne_true)]
        cases r with
        | again => exact ⟨pnode, [], rfl, h.sends_nothing, fun _ => hsocket⟩
        | error =>
          exact ⟨{ pnode with hSocket := false }, [], by rw [← hqueue], ⟨h.closed, rfl, fun _ => ⟨rfl, rfl⟩⟩,
            fun herror => absurd List.mem_cons_self herror⟩
        | sent n =>
          dsimp only
          by_cases hall : pnode.nSendOffset + min (n + 1) (data.length - pnode.nSendOffset) = data.length
          · rw [if_pos hall]
            obtain ⟨pnode', bytes, hloop, hsends, hopen⟩ := ih (h.next hqueue)
            rw [hsocket] at hloop hsends hopen
            rw [hloop]
            refine ⟨pnode', _, rfl, sends_whole hqueue hsocket hall (hsocket ▸ hsends), fun herror => ?_⟩
            exact hopen fun hmem => herror (List.mem_cons_of_mem _ hmem)
          · rw [if_neg hall]
            exact ⟨_, _, by rw [← hqueue, ← hsocket], h.part hqueue hsocket (by omega), fun _ => hsocket⟩

/-- `send` may take all that there is. -/
theorem exists_results (h : pnode.Inv) (hsocket : pnode.hSocket = true) :
    ∃ results, SendResult.error ∉ results ∧
      ∀ pnode' bytes, sendLoop results pnode = some (pnode', bytes) → pnode'.vSendMsg = [] := by
  induction hqueue : pnode.vSendMsg generalizing pnode with
  | nil =>
    refine ⟨[], List.not_mem_nil, fun pnode' bytes hloop => ?_⟩
    unfold sendLoop at hloop
    rw [hqueue] at hloop
    cases hloop
    exact hqueue
  | cons data vSendMsg ih =>
    have hoffset := h.offset data (by rw [hqueue]; rfl)
    obtain ⟨results, herror, hall⟩ := ih (h.next hqueue) hsocket rfl
    refine ⟨.sent data.length :: results, ?_, fun pnode' bytes hloop => ?_⟩
    · rw [List.mem_cons]
      rintro (hsent | hmem)
      · cases hsent
      · exact herror hmem
    · unfold sendLoop at hloop
      rw [hqueue] at hloop
      dsimp only at hloop
      rw [if_neg (not_not.mpr hoffset), if_neg (by rw [hsocket]; exact Bool.false_ne_true), if_pos (by omega)] at hloop
      obtain ⟨r, hrest, hr⟩ := Option.map_eq_some_iff.mp hloop
      cases hr
      exact hall r.1 r.2 hrest

/-- **What a call of `SocketSendData` sends**, whatever `send` answers. Its assertions hold. -/
theorem inv_socketSendData (results : List SendResult) (h : pnode.Inv) :
    ∃ pnode' bytes, socketSendData results pnode = some (pnode', bytes) ∧ Sends pnode pnode' bytes ∧
      (SendResult.error ∉ results → pnode'.hSocket = pnode.hSocket) := by
  obtain ⟨pnode', bytes, hloop, hsends, hopen⟩ := inv_sendLoop results h
  refine ⟨pnode', bytes, ?_, hsends, hopen⟩
  unfold socketSendData
  rw [hloop]
  refine if_neg fun ⟨hnil, hassert⟩ => hassert ⟨hsends.inv.offset_nil hnil, ?_⟩
  rw [hsends.inv.size]
  dsimp only at hnil
  rw [hnil]
  rfl

/-- **What `PushMessage` does**: the frame of the message is put behind what is still to be sent. -/
theorem inv_pushMessage (cr : Crypto) {pchMessageStart : Bytes} (hstart : pchMessageStart.length = messageStartSize)
    (command data : Bytes) (results : List SendResult) (h : pnode.Inv) :
    ∃ pnode' bytes, pushMessage cr pchMessageStart command data results pnode = some (pnode', bytes) ∧ pnode'.Inv ∧
      pnode.remaining ++ frame cr pchMessageStart command data = bytes ++ pnode'.remaining ∧
      (pnode.hSocket = false → pnode'.hSocket = false ∧ bytes = []) ∧
      (SendResult.error ∉ results → pnode'.hSocket = pnode.hSocket) := by
  have hlen : (frame cr pchMessageStart command data).length = headerSize + data.length := length_frame hstart
  have hne : frame cr pchMessageStart command data ≠ [] := by
    intro hnil
    rw [hnil, List.length_nil] at hlen
    exact absurd hlen (by unfold headerSize; omega)
  have hheader :
      ¬ ((CMessageHeader.ofCommand pchMessageStart command 0).write ++ data).length < checksumOffset + 4 := by
    rw [List.length_append, length_write hstart (length_strncpy _ _)]
    unfold checksumOffset headerSize
    omega
  -- the queue with the message
  have hpushed : { pnode with
      ssSend := []
      vSendMsg := pnode.vSendMsg ++ [frame cr pchMessageStart command data]
      nSendSize := pnode.nSendSize + (frame cr pchMessageStart command data).length }.Inv := by
    refine ⟨rfl, fun d hd => ?_, fun hnil => absurd hnil (List.concat_ne_nil _ _), ?_, ?_⟩
    · cases hqueue : pnode.vSendMsg with
      | nil =>
        have hhead : (pnode.vSendMsg ++ [frame cr pchMessageStart command data]).head? = some d := hd
        rw [hqueue] at hhead
        show pnode.nSendOffset < d.length
        rw [h.offset_nil hqueue, ← Option.some.inj hhead]
        exact List.length_pos_iff.mpr hne
      | cons first vSendMsg =>
        have hhead : (pnode.vSendMsg ++ [frame cr pchMessageStart command data]).head? = some d := hd
        rw [hqueue] at hhead
        exact h.offset d (by rw [hqueue]; exact hhead)
    · exact List.forall_mem_append.mpr ⟨h.nonempty, List.forall_mem_singleton.mpr hne⟩
    · show pnode.nSendSize + _ = (pnode.vSendMsg ++ [_]).flatten.length
      rw [List.flatten_append, List.length_append, h.size, List.flatten_singleton]
  have hremaining : pnode.remaining ++ frame cr pchMessageStart command data =
      ((pnode.vSendMsg ++ [frame cr pchMessageStart command data]).flatten).drop pnode.nSendOffset := by
    unfold remaining
    rw [List.flatten_append, List.flatten_singleton, List.drop_append_of_le_length]
    cases hqueue : pnode.vSendMsg with
    | nil => exact (h.offset_nil hqueue).le
    | cons first vSendMsg =>
      rw [List.flatten_cons, List.length_append]
      have hoffset := h.offset first (by rw [hqueue]; rfl)
      omega
  unfold pushMessage
  rw [if_neg (not_not.mpr h.ssSend)]
  dsimp only
  rw [if_neg hheader, hremaining]
  by_cases hempty : pnode.vSendMsg = []
  · rw [if_pos hempty]
    obtain ⟨pnode', bytes, hsend, hsends, hopen⟩ := inv_socketSendData results hpushed
    exact ⟨pnode', bytes, hsend, hsends.inv, hsends.remaining, hsends.closed, hopen⟩
  · rw [if_neg hempty]
    exact ⟨_, [], rfl, hpushed, rfl, fun hclosed => ⟨hclosed, rfl⟩, fun _ => rfl⟩

end Sending

end SendQueue

/-! ## The link -/

/-- A connection in one direction: the sending side, the bytes in flight, the receiving side. -/
structure Link where
  sender : SendQueue
  wire : Bytes
  receiver : CNode
  /-- The messages that `PushMessage` was called with, all of them. -/
  pushed : List (Bytes × Bytes)
deriving DecidableEq, Repr

/-- A step of one of the sides, or of what is between them. -/
inductive LinkEvent
  | push (command data : Bytes) (results : List SendResult)
  /-- The socket thread of the sending side sends. -/
  | send (results : List SendResult)
  /-- The socket thread of the receiving side receives a byte, and so many more if there are. -/
  | receive (n : Nat)
  /-- The message thread of the receiving side. -/
  | handle (fWaiting fSendFull fDisconnect : Bool)
  /-- The receiving side disconnects. -/
  | disconnect
  | close (fLockRecv : Bool)
  /-- The connection breaks: of the bytes in flight, so many will still arrive. -/
  | lose (n : Nat)

namespace LinkEvent

/-- The messages that are pushed are such as the node pushes. -/
def Ok : LinkEvent → Prop
  | .push command data _ => Pushable command data
  | _ => True

/-- Neither side is closed in the step. -/
def Calm : LinkEvent → Prop
  | .push _ _ results => .error ∉ results
  | .send results => .error ∉ results
  | .receive _ => True
  | .handle _ _ fDisconnect => fDisconnect = false
  | .disconnect => False
  | .close _ => False
  | .lose _ => False

end LinkEvent

namespace Link

/-- A new connection. -/
def connected : Link where
  sender := .connected
  wire := []
  receiver := .connected
  pushed := []

variable (cr : Crypto) (pchMessageStart : Bytes)

/-- A step. None where an assertion fails. -/
def step (link : Link) : LinkEvent → Option Link
  | .push command data results =>
    (link.sender.pushMessage cr pchMessageStart command data results).map fun r =>
      { link with sender := r.1, wire := link.wire ++ r.2, pushed := link.pushed ++ [(command, data)] }
  | .send results =>
    (link.sender.socketSendData results).map fun r => { link with sender := r.1, wire := link.wire ++ r.2 }
  | .receive n =>
    -- without bytes, or a socket, nothing is received
    if link.wire = [] ∨ link.receiver.hSocket = false then some link
    else
      let nBytes := min (n + 1) 0x10000
      some { link with
        wire := link.wire.drop nBytes
        receiver := link.receiver.step cr pchMessageStart (.receive (link.wire.take nBytes)) }
  | .handle fWaiting fSendFull fDisconnect =>
    some { link with
      receiver := link.receiver.step cr pchMessageStart (.handle fWaiting fSendFull fDisconnect) }
  | .disconnect => some { link with receiver := link.receiver.step cr pchMessageStart .disconnect }
  | .close fLockRecv => some { link with receiver := link.receiver.step cr pchMessageStart (.close fLockRecv) }
  | .lose n => some { link with wire := link.wire.take n, sender := { link.sender with hSocket := false } }

/-- The run of a list of steps. -/
def run (link : Link) (es : List LinkEvent) : Option Link := es.foldlM (step cr pchMessageStart) link

/-- How the two sides stand to each other. -/
structure Inv (link : Link) : Prop where
  sender : link.sender.Inv
  receiver : link.receiver.Inv cr pchMessageStart
  pushable : ∀ m ∈ link.pushed, Pushable m.1 m.2
  arrives : link.receiver.stream ++ link.wire <+: frames cr pchMessageStart link.pushed
  sends : link.sender.hSocket = true →
    link.receiver.stream ++ link.wire ++ link.sender.remaining = frames cr pchMessageStart link.pushed

/-- Neither side is closed. -/
def Open (link : Link) : Prop := link.sender.hSocket = true ∧ link.receiver.fDisconnect = false

section Run

variable {cr : Crypto} {pchMessageStart : Bytes} {link : Link}

theorem frames_append (msgs more : List (Bytes × Bytes)) :
    frames cr pchMessageStart (msgs ++ more) = frames cr pchMessageStart msgs ++ frames cr pchMessageStart more :=
  List.flatMap_append

/-- What has arrived cuts nobody off. -/
theorem Inv.harmless (hstart : pchMessageStart.length = messageStartSize) (h : link.Inv cr pchMessageStart)
    {stream : Bytes} (hstream : stream <+: frames cr pchMessageStart link.pushed) :
    (splitStream stream).2 ≠ none ∧
      ∀ m ∈ (splitStream stream).1, startsWell pchMessageStart m = true ∧ isGood cr pchMessageStart m = true := by
  have hframes := splitStream_frames cr hstart h.pushable
  constructor
  · intro hnone
    obtain ⟨more, hmore⟩ := hstream
    have hrefused := splitStream_append_refused hnone more
    rw [hmore, hframes] at hrefused
    rw [← hrefused] at hnone
    cases hnone
  · intro m hm
    have hmem := (splitStream_mono hstream).subset hm
    rw [hframes] at hmem
    obtain ⟨m', hm', rfl⟩ := List.mem_map.mp hmem
    exact ⟨decide_eq_true rfl, isGood_sentHeader (h.pushable m' hm')⟩

/-- Bytes that go from the sending side onto the wire. -/
theorem Inv.onWire (h : link.Inv cr pchMessageStart) {sender : SendQueue} {bytes : Bytes} (hinv : sender.Inv)
    {more : List (Bytes × Bytes)} (hmore : ∀ m ∈ more, Pushable m.1 m.2)
    (hremaining : link.sender.remaining ++ frames cr pchMessageStart more = bytes ++ sender.remaining)
    (hclosed : link.sender.hSocket = false → sender.hSocket = false ∧ bytes = []) :
    { link with sender, wire := link.wire ++ bytes, pushed := link.pushed ++ more }.Inv cr pchMessageStart := by
  have hpushable : ∀ m ∈ link.pushed ++ more, Pushable m.1 m.2 := List.forall_mem_append.mpr ⟨h.pushable, hmore⟩
  cases hsocket : link.sender.hSocket with
  | false =>
    obtain ⟨hsender, rfl⟩ := hclosed hsocket
    refine ⟨hinv, h.receiver, hpushable, ?_, fun hopen => by cases hsender.symm.trans hopen⟩
    dsimp only
    rw [List.append_nil, frames_append]
    exact h.arrives.trans (List.prefix_append _ _)
  | true =>
    have hsends : link.receiver.stream ++ (link.wire ++ bytes) ++ sender.remaining =
        frames cr pchMessageStart (link.pushed ++ more) := by
      rw [frames_append, ← h.sends hsocket]
      simp only [List.append_assoc]
      rw [hremaining]
    exact ⟨hinv, h.receiver, hpushable, ⟨_, hsends⟩, fun _ => hsends⟩

/-- A step of the receiving side that receives nothing. -/
theorem Inv.ofReceiver (h : link.Inv cr pchMessageStart) {receiver : CNode} (hinv : receiver.Inv cr pchMessageStart)
    (hstream : receiver.stream = link.receiver.stream) : { link with receiver }.Inv cr pchMessageStart :=
  ⟨h.sender, hinv, h.pushable, by rw [hstream]; exact h.arrives, fun hopen => by rw [hstream]; exact h.sends hopen⟩

/-- **A step**: no assertion fails, and neither side is closed but by the step's own doing. -/
theorem Inv.step (hstart : pchMessageStart.length = messageStartSize) (h : link.Inv cr pchMessageStart) {e : LinkEvent}
    (he : e.Ok) : ∃ link', link.step cr pchMessageStart e = some link' ∧ link'.Inv cr pchMessageStart ∧
      (e.Calm → link.Open → link'.Open) := by
  cases e with
  | push command data results =>
    obtain ⟨sender, bytes, hpush, hinv, hremaining, hclosed, hopen⟩ :=
      SendQueue.inv_pushMessage cr hstart command data results h.sender
    refine ⟨_, Option.map_eq_some_iff.mpr ⟨_, hpush, rfl⟩, h.onWire hinv (List.forall_mem_singleton.mpr he) ?_ hclosed,
      fun hcalm hopen' => ?_⟩
    · show _ ++ (frame cr pchMessageStart command data ++ []) = _
      rw [List.append_nil]
      exact hremaining
    · exact ⟨(hopen hcalm).trans hopen'.1, hopen'.2⟩
  | send results =>
    obtain ⟨sender, bytes, hsend, hsends, hopen⟩ := SendQueue.inv_socketSendData results h.sender
    have hinv := h.onWire hsends.inv (List.forall_mem_nil _) (by rw [← hsends.remaining]; exact List.append_nil _)
      hsends.closed
    rw [List.append_nil] at hinv
    exact ⟨_, Option.map_eq_some_iff.mpr ⟨_, hsend, rfl⟩, hinv,
      fun hcalm hopen' => ⟨(hopen hcalm).trans hopen'.1, hopen'.2⟩⟩
  | receive n =>
    by_cases hnone : link.wire = [] ∨ link.receiver.hSocket = false
    · exact ⟨link, if_pos hnone, h, fun _ hopen => hopen⟩
    · have hsocket : link.receiver.hSocket = true := Bool.eq_true_of_not_eq_false fun hs => hnone (.inr hs)
      have hstream := CNode.stream_receive pchMessageStart hsocket (link.wire.take (min (n + 1) 0x10000))
      have hwhole : (link.receiver.receive pchMessageStart (link.wire.take (min (n + 1) 0x10000))).stream ++
          link.wire.drop (min (n + 1) 0x10000) = link.receiver.stream ++ link.wire := by
        rw [hstream, List.append_assoc, List.take_append_drop]
      refine ⟨_, if_neg hnone, ⟨h.sender, h.receiver.receive _, h.pushable, ?_, fun hopen => ?_⟩,
        fun _ hopen => ⟨hopen.1, ?_⟩⟩
      · exact hwhole ▸ h.arrives
      · exact (congrArg (· ++ link.sender.remaining) hwhole).trans (h.sends hopen)
      · refine h.receiver.connected_receive hopen.2 (h.harmless hstart ?_).1
        exact ((List.prefix_append_right_inj _).mpr (List.take_prefix _ _)).trans h.arrives
  | handle fWaiting fSendFull fDisconnect =>
    refine ⟨_, rfl, h.ofReceiver (h.receiver.handle _ _ _) (CNode.stream_handle _ _ _),
      fun hcalm hopen => ⟨hopen.1, ?_⟩⟩
    obtain rfl : fDisconnect = false := hcalm
    refine h.receiver.connected_handle hopen.2 (fun m hm => ((h.harmless hstart ?_).2 m hm).1) _ _
    exact (List.prefix_append _ _).trans h.arrives
  | disconnect => exact ⟨_, rfl, h.ofReceiver (h.receiver.step .disconnect) rfl, fun hcalm => hcalm.elim⟩
  | close fLockRecv => exact ⟨_, rfl, h.ofReceiver (h.receiver.step (.close fLockRecv)) rfl, fun hcalm => hcalm.elim⟩
  | lose n =>
    refine ⟨_, rfl, ⟨h.sender.closed, h.receiver, h.pushable, ?_, fun hopen => (by cases hopen)⟩,
      fun hcalm => hcalm.elim⟩
    exact ((List.prefix_append_right_inj _).mpr (List.take_prefix _ _)).trans h.arrives

/-- **A run**: no assertion fails, and neither side is closed but by the run's own doing. -/
theorem inv_run (cr : Crypto) (hstart : pchMessageStart.length = messageStartSize) {es : List LinkEvent}
    (hes : ∀ e ∈ es, e.Ok)
    (h : link.Inv cr pchMessageStart) : ∃ link', link.run cr pchMessageStart es = some link' ∧
      link'.Inv cr pchMessageStart ∧ ((∀ e ∈ es, e.Calm) → link.Open → link'.Open) := by
  induction es generalizing link with
  | nil => exact ⟨link, rfl, h, fun _ hopen => hopen⟩
  | cons e es ih =>
    obtain ⟨he, hes⟩ := List.forall_mem_cons.mp hes
    obtain ⟨link₁, hstep, hinv₁, hopen₁⟩ := h.step hstart he
    obtain ⟨link₂, hrun, hinv₂, hopen₂⟩ := ih hes hinv₁
    refine ⟨link₂, ?_, hinv₂, fun hcalm hopen => ?_⟩
    · unfold run at hrun ⊢
      rw [List.foldlM_cons, hstep]
      exact hrun
    · obtain ⟨hcalm, hcalms⟩ := List.forall_mem_cons.mp hcalm
      exact hopen₂ hcalms (hopen₁ hcalm hopen)

theorem inv_connected : (connected).Inv cr pchMessageStart :=
  ⟨SendQueue.inv_connected, CNode.inv_connected, List.forall_mem_nil _, List.prefix_refl _, fun _ => rfl⟩

/-- What has been handed over and what waits, once all bytes have arrived. -/
theorem Inv.pushed_eq (hstart : pchMessageStart.length = messageStartSize) (h : link.Inv cr pchMessageStart)
    (hopen : link.Open) (hqueue : link.sender.vSendMsg = []) (hwire : link.wire = []) :
    link.pushed = link.receiver.processed ++ accepted cr pchMessageStart link.receiver.waiting := by
  obtain ⟨taken, queue, rest, tail, hstep⟩ := h.receiver.connected hopen.2
  have hall : link.receiver.stream = frames cr pchMessageStart link.pushed := by
    have hsends := h.sends hopen.1
    unfold SendQueue.remaining at hsends
    rwa [hwire, hqueue, List.flatten_nil, List.drop_nil, List.append_nil, List.append_nil] at hsends
  have hframes := accepted_frames cr hstart h.pushable
  rw [← hall, hstep.split] at hframes
  rw [hstep.waiting_eq, hstep.processed, ← accepted_append hstep.start, hframes]

end Run

/-- Two messages: the first is sent in two parts, and the second waits for it. -/
def sampleSteps : List LinkEvent :=
  [.push [0x70, 0x69, 0x6e, 0x67] [1, 2, 3] [.sent 9], .push [0x61, 0x64, 0x64, 0x72] [] [], .receive 7,
    .send [.sent 100, .sent 4], .receive 40, .handle false false false]

theorem sampleSteps_ok : ∀ e ∈ sampleSteps, e.Ok := by
  have hping : Pushable [0x70, 0x69, 0x6e, 0x67] [1, 2, 3] := ⟨by decide, by decide +kernel,
    show 3 ≤ 0x02000000 by omega⟩
  have haddr : Pushable [0x61, 0x64, 0x64, 0x72] [] := ⟨by decide, by decide +kernel, Nat.zero_le _⟩
  unfold sampleSteps
  simp only [List.forall_mem_cons]
  exact ⟨hping, haddr, trivial, trivial, trivial, trivial, List.forall_mem_nil _⟩

section Drain

variable {cr : Crypto} {pchMessageStart : Bytes} {link : Link}

/-- The link gets to a state by steps that push nothing and close nothing. -/
def GoesOn (cr : Crypto) (pchMessageStart : Bytes) (link link' : Link) : Prop :=
  ∃ es : List LinkEvent, (∀ e ∈ es, e.Ok ∧ e.Calm) ∧ link.run cr pchMessageStart es = some link' ∧
    link'.pushed = link.pushed

theorem GoesOn.refl (link : Link) : GoesOn cr pchMessageStart link link := ⟨[], List.forall_mem_nil _, rfl, rfl⟩

theorem GoesOn.trans {link₁ link₂ : Link} (h : GoesOn cr pchMessageStart link link₁)
    (h' : GoesOn cr pchMessageStart link₁ link₂) : GoesOn cr pchMessageStart link link₂ := by
  obtain ⟨es, hes, hrun, hpushed⟩ := h
  obtain ⟨es', hes', hrun', hpushed'⟩ := h'
  refine ⟨es ++ es', List.forall_mem_append.mpr ⟨hes, hes'⟩, ?_, hpushed'.trans hpushed⟩
  unfold run at hrun hrun' ⊢
  rw [List.foldlM_append, hrun]
  exact hrun'

theorem GoesOn.step (e : LinkEvent) {link' : Link} (hok : e.Ok) (hcalm : e.Calm)
    (hstep : link.step cr pchMessageStart e = some link') (hpushed : link'.pushed = link.pushed) :
    GoesOn cr pchMessageStart link link' := by
  refine ⟨[e], List.forall_mem_singleton.mpr ⟨hok, hcalm⟩, ?_, hpushed⟩
  unfold run
  rw [List.foldlM_cons, hstep]
  rfl

/-- What a link that goes on keeps. -/
theorem GoesOn.keeps (hstart : pchMessageStart.length = messageStartSize) {link' : Link}
    (hgoes : GoesOn cr pchMessageStart link link') (h : link.Inv cr pchMessageStart) (hopen : link.Open) :
    link'.Inv cr pchMessageStart ∧ link'.Open := by
  obtain ⟨es, hes, hrun, -⟩ := hgoes
  obtain ⟨link₁, hrun₁, hinv, hkeeps⟩ := inv_run cr hstart (fun e he => (hes e he).1) h
  obtain rfl := Option.some.inj (hrun₁.symm.trans hrun)
  exact ⟨hinv, hkeeps (fun e he => (hes e he).2) hopen⟩

/-- `send` can take all that is to be sent. -/
theorem drain_sender (h : link.Inv cr pchMessageStart) (hopen : link.Open) :
    ∃ link', GoesOn cr pchMessageStart link link' ∧ link'.sender.vSendMsg = [] := by
  obtain ⟨results, herror, hall⟩ := SendQueue.exists_results h.sender hopen.1
  obtain ⟨sender, bytes, hsend, -, -⟩ := SendQueue.inv_socketSendData results h.sender
  have hstep : link.step cr pchMessageStart (.send results) =
      some { link with sender, wire := link.wire ++ bytes } := Option.map_eq_some_iff.mpr ⟨_, hsend, rfl⟩
  refine ⟨_, GoesOn.step (.send results) trivial herror hstep rfl, hall sender bytes ?_⟩
  obtain ⟨r, hloop, hr⟩ := Option.bind_eq_some_iff.mp hsend
  by_cases hassert : r.1.vSendMsg = [] ∧ ¬ (r.1.nSendOffset = 0 ∧ r.1.nSendSize = 0)
  · rw [if_pos hassert] at hr
    cases hr
  · rw [if_neg hassert] at hr
    rw [hloop, hr]

/-- All bytes on the wire can arrive. -/
theorem drain_wire (hstart : pchMessageStart.length = messageStartSize) (h : link.Inv cr pchMessageStart)
    (hopen : link.Open) :
    ∃ link', GoesOn cr pchMessageStart link link' ∧ link'.wire = [] ∧ link'.sender = link.sender := by
  induction hn : link.wire.length generalizing link with
  | zero => exact ⟨link, .refl link, List.length_eq_zero_iff.mp hn, rfl⟩
  | succ n ih =>
    obtain ⟨taken, queue, rest, tail, hinstep⟩ := h.receiver.connected hopen.2
    have hnone : ¬ (link.wire = [] ∨ link.receiver.hSocket = false) := by
      rintro (hnil | hclosed)
      · rw [hnil] at hn
        cases hn
      · cases hclosed.symm.trans hinstep.hSocket
    have hstep : link.step cr pchMessageStart (.receive 0) = some { link with
        wire := link.wire.drop 1
        receiver := link.receiver.step cr pchMessageStart (.receive (link.wire.take 1)) } := if_neg hnone
    have hgoes := GoesOn.step (.receive 0) trivial trivial hstep rfl
    obtain ⟨hinv, hopen'⟩ := hgoes.keeps hstart h hopen
    obtain ⟨link', hgoes', hwire, hsender⟩ := ih hinv hopen' (by rw [List.length_drop, hn, Nat.add_sub_cancel])
    exact ⟨link', hgoes.trans hgoes', hwire, hsender⟩

/-- All messages that wait can be handed over. -/
theorem drain_queue (hstart : pchMessageStart.length = messageStartSize) (h : link.Inv cr pchMessageStart)
    (hopen : link.Open) : ∃ link', GoesOn cr pchMessageStart link link' ∧ link'.wire = link.wire ∧
      link'.sender = link.sender ∧ link'.receiver.waiting = [] := by
  obtain ⟨taken, queue, rest, tail, hinstep⟩ := h.receiver.connected hopen.2
  induction queue generalizing link taken with
  | nil => exact ⟨link, .refl link, rfl, rfl, hinstep.waiting_eq⟩
  | cons m queue ih =>
    obtain ⟨hwell, hgood⟩ := (h.harmless hstart ((List.prefix_append _ _).trans h.arrives)).2 m (by
      rw [hinstep.split]
      exact List.mem_append_right _ List.mem_cons_self)
    obtain ⟨hinstep', -, -⟩ := hinstep.handle_good hopen.2 hwell hgood
    have hgoes : GoesOn cr pchMessageStart link { link with
        receiver := link.receiver.step cr pchMessageStart (.handle false false false) } :=
      GoesOn.step (.handle false false false) trivial rfl rfl rfl
    obtain ⟨hinv, hopen'⟩ := hgoes.keeps hstart h hopen
    obtain ⟨link', hgoes', hwire, hsender, hwaiting⟩ := ih hinv hopen' (taken ++ [m]) hinstep'
    exact ⟨link', hgoes.trans hgoes', hwire, hsender, hwaiting⟩

end Drain

end Link

end Morcochain
