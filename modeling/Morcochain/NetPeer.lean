import Morcochain.NetStream
import Morcochain.Lib.Run

/-!
# The receiving side of a peer

The socket thread puts what arrives into `vRecvMsg` and the message thread takes complete messages from its front
(`ThreadSocketHandler`, `ThreadMessageHandler`, `net.cpp`; `ProcessMessages`, `main.cpp`), in any order of their turns,
with a remote side that sends whatever it likes.

* `processMessages_spec` : what a call of `ProcessMessages` takes.
* `CNode.inv_run` : how the peer stands to the stream, after any turns.
* `CNode.peer_runs` : **a message is handed over once, in its order, and only a good one**.
-/

set_option autoImplicit false

namespace Morcochain

/-! ## ProcessMessages -/

/-- What a call of `ProcessMessages` leaves of the queue, the message it hands to `ProcessMessage`, and its result. -/
structure Processed where
  vRecvMsg : List CNetMessage
  /-- The command and the data. -/
  message : Option (Bytes × Bytes)
  fOk : Bool

/-- The loop of `ProcessMessages`. `fSendFull`: the send buffer is too full to respond. -/
def processMessages (cr : Crypto) (pchMessageStart : Bytes) (fSendFull : Bool) : List CNetMessage → Processed
  | [] => ⟨[], none, true⟩
  | msg :: vRecvMsg =>
    -- don't bother if send buffer is too full to respond anyway
    if fSendFull then ⟨msg :: vRecvMsg, none, true⟩
    -- end, if an incomplete message is found
    else if !msg.complete then ⟨msg :: vRecvMsg, none, true⟩
    -- scan for message start
    else if msg.hdr.pchMessageStart ≠ pchMessageStart then ⟨vRecvMsg, none, false⟩
    else if !msg.hdr.isValid pchMessageStart then processMessages cr pchMessageStart fSendFull vRecvMsg
    else if messageChecksum cr (msg.vRecv.take msg.hdr.nMessageSize) ≠ msg.hdr.nChecksum then
      processMessages cr pchMessageStart fSendFull vRecvMsg
    else ⟨vRecvMsg, some (msg.hdr.getCommand, msg.vRecv), true⟩

section Accepted

variable (cr : Crypto) (pchMessageStart : Bytes)

/-- The message begins as the messages of this network do. -/
def startsWell (m : StreamMessage) : Bool := m.1.pchMessageStart = pchMessageStart

/-- The header is valid and the checksum is right. -/
def isGood (m : StreamMessage) : Bool := m.1.isValid pchMessageStart && decide (messageChecksum cr m.2 = m.1.nChecksum)

/-- The good messages, up to one that begins as another network's. -/
def accepted (msgs : List StreamMessage) : List (Bytes × Bytes) :=
  ((msgs.takeWhile (startsWell pchMessageStart)).filter (isGood cr pchMessageStart)).map fun m => (m.1.getCommand, m.2)

variable {cr pchMessageStart}

theorem accepted_append {msgs : List StreamMessage} (h : ∀ m ∈ msgs, startsWell pchMessageStart m = true)
    (more : List StreamMessage) :
    accepted cr pchMessageStart (msgs ++ more) =
      accepted cr pchMessageStart msgs ++ accepted cr pchMessageStart more := by
  unfold accepted
  rw [List.takeWhile_append_of_pos h, List.takeWhile_eq_self_iff.mpr h, List.filter_append, List.map_append]

/-- More messages leave those that were accepted. -/
theorem accepted_mono {msgs more : List StreamMessage} (h : msgs <+: more) :
    accepted cr pchMessageStart msgs <+: accepted cr pchMessageStart more := by
  have htake : msgs.takeWhile (startsWell pchMessageStart) <+: more.takeWhile (startsWell pchMessageStart) := by
    obtain ⟨rest, rfl⟩ := h
    rw [List.takeWhile_append]
    by_cases hall : (msgs.takeWhile (startsWell pchMessageStart)).length = msgs.length
    · rw [if_pos hall]
      exact (List.takeWhile_prefix _).trans (List.prefix_append _ _)
    · rw [if_neg hall]
  exact (htake.filter _).map _

theorem accepted_singleton (cr : Crypto) {m : StreamMessage} (h : startsWell pchMessageStart m = true) :
    accepted cr pchMessageStart [m] = if isGood cr pchMessageStart m then [(m.1.getCommand, m.2)] else [] := by
  unfold accepted
  rw [List.takeWhile_cons_of_pos h, List.takeWhile_nil]
  cases hgood : isGood cr pchMessageStart m with
  | true => rw [List.filter_cons_of_pos hgood, List.filter_nil]; rfl
  | false => rw [List.filter_cons_of_neg (by rw [hgood]; exact Bool.false_ne_true), List.filter_nil]; rfl

/-- What a call of `ProcessMessages` has taken off messages. -/
structure TakesMessages (cr : Crypto) (pchMessageStart : Bytes) (taken : List StreamMessage) (r : Processed) :
    Prop where
  ofOk : r.fOk = true → (∀ m ∈ taken, startsWell pchMessageStart m = true) ∧
    accepted cr pchMessageStart taken = r.message.toList
  notOk : r.fOk = false → r.message = none ∧ ∃ m ∈ taken, startsWell pchMessageStart m = false

/-- A turn of the loop over a complete message. -/
theorem processMessages_cons (cr : Crypto) (pchMessageStart : Bytes) (m : StreamMessage)
    (hsize : m.1.nMessageSize = m.2.length) (vRecvMsg : List CNetMessage) :
    processMessages cr pchMessageStart false (dataMessage m.1 m.2 :: vRecvMsg) =
      if startsWell pchMessageStart m then
        if isGood cr pchMessageStart m then ⟨vRecvMsg, some (m.1.getCommand, m.2), true⟩
        else processMessages cr pchMessageStart false vRecvMsg
      else ⟨vRecvMsg, none, false⟩ := by
  have hdata : (dataMessage m.1 m.2).vRecv = m.2 := by
    show m.2 ++ List.replicate (m.1.nMessageSize - m.2.length) 0 = m.2
    rw [hsize, Nat.sub_self, List.replicate_zero, List.append_nil]
  have hcomplete : (dataMessage m.1 m.2).complete = true := by rw [complete_dataMessage, decide_eq_true hsize]
  have hhdr : (dataMessage m.1 m.2).hdr = m.1 := rfl
  rw [processMessages, if_neg Bool.false_ne_true, hcomplete, hdata, hhdr, hsize, List.take_length]
  unfold startsWell isGood
  by_cases hstart : m.1.pchMessageStart = pchMessageStart
  · rw [if_neg (show ¬ (!true) = true from Bool.false_ne_true), if_neg (not_not.mpr hstart),
      if_pos (decide_eq_true hstart)]
    cases hvalid : m.1.isValid pchMessageStart with
    | false => rfl
    | true =>
      rw [if_neg (show ¬ (!true) = true from Bool.false_ne_true), Bool.true_and]
      by_cases hsum : messageChecksum cr m.2 = m.1.nChecksum
      · rw [if_neg (not_not.mpr hsum), if_pos (decide_eq_true hsum)]
      · rw [if_pos hsum, if_neg (by rw [decide_eq_true_eq]; exact hsum)]
  · rw [if_neg (show ¬ (!true) = true from Bool.false_ne_true), if_pos hstart,
      if_neg (by rw [decide_eq_true_eq]; exact hstart)]

/-- **What a call of `ProcessMessages` takes** off complete messages, behind which the queue is incomplete: bad ones,
and then at most one that is good or begins as another network's. -/
theorem processMessages_spec (cr : Crypto) (pchMessageStart : Bytes) {tail : List CNetMessage}
    (htail : ∀ msg ∈ tail, msg.complete = false) (fSendFull : Bool)
    (msgs : List StreamMessage) (hsize : ∀ m ∈ msgs, m.1.nMessageSize = m.2.length) :
    ∃ taken rest, msgs = taken ++ rest ∧
      (processMessages cr pchMessageStart fSendFull (received msgs ++ tail)).vRecvMsg = received rest ++ tail ∧
      TakesMessages cr pchMessageStart taken
        (processMessages cr pchMessageStart fSendFull (received msgs ++ tail)) := by
  -- a call that takes nothing
  have hnone : ∀ {msgs : List StreamMessage},
      processMessages cr pchMessageStart fSendFull (received msgs ++ tail) = ⟨received msgs ++ tail, none, true⟩ →
      ∃ taken rest, msgs = taken ++ rest ∧
        (processMessages cr pchMessageStart fSendFull (received msgs ++ tail)).vRecvMsg = received rest ++ tail ∧
        TakesMessages cr pchMessageStart taken
          (processMessages cr pchMessageStart fSendFull (received msgs ++ tail)) := by
    intro msgs h
    rw [h]
    exact ⟨[], msgs, rfl, rfl, fun _ => ⟨List.forall_mem_nil _, rfl⟩, fun h => (by cases h)⟩
  induction msgs with
  | nil =>
    refine hnone ?_
    cases tail with
    | nil => rfl
    | cons msg tail =>
      show processMessages cr pchMessageStart fSendFull (msg :: tail) = _
      rw [processMessages, htail msg List.mem_cons_self]
      cases fSendFull <;> rfl
  | cons m msgs ih =>
    cases fSendFull with
    | true => exact hnone (by show processMessages _ _ true (_ :: _) = _; rw [processMessages]; rfl)
    | false =>
      obtain ⟨hm, hmsgs⟩ := List.forall_mem_cons.mp hsize
      have hturn := processMessages_cons cr pchMessageStart m hm (received msgs ++ tail)
      show ∃ taken rest, m :: msgs = taken ++ rest ∧
        (processMessages cr pchMessageStart false (dataMessage m.1 m.2 :: (received msgs ++ tail))).vRecvMsg = _ ∧
        TakesMessages cr pchMessageStart taken
          (processMessages cr pchMessageStart false (dataMessage m.1 m.2 :: (received msgs ++ tail)))
      rw [hturn]
      cases hstart : startsWell pchMessageStart m with
      | false =>
        exact ⟨[m], msgs, rfl, rfl, fun h => (by cases h), fun _ => ⟨rfl, m, List.mem_cons_self, hstart⟩⟩
      | true =>
        rw [if_pos rfl]
        have hone := accepted_singleton cr hstart
        cases hgood : isGood cr pchMessageStart m with
        | true =>
          rw [hgood, if_pos rfl] at hone
          rw [if_pos rfl]
          exact ⟨[m], msgs, rfl, rfl, fun _ => ⟨List.forall_mem_singleton.mpr hstart, hone⟩, fun h => (by cases h)⟩
        | false =>
          rw [hgood, if_neg Bool.false_ne_true] at hone
          rw [if_neg Bool.false_ne_true]
          obtain ⟨taken, rest, rfl, hleft, htakes⟩ := ih hmsgs
          refine ⟨m :: taken, rest, rfl, hleft, fun hok => ?_, fun hnot => ?_⟩
          swap
          · obtain ⟨hmessage, m', hm', hbad⟩ := htakes.notOk hnot
            exact ⟨hmessage, m', List.mem_cons_of_mem _ hm', hbad⟩
          obtain ⟨hall, haccepted⟩ := htakes.ofOk hok
          refine ⟨List.forall_mem_cons.mpr ⟨hstart, hall⟩, ?_⟩
          rw [← haccepted, show m :: taken = [m] ++ taken from rfl,
            accepted_append (List.forall_mem_singleton.mpr hstart), hone, List.nil_append]

end Accepted

/-! ## The peer -/

/-- A peer, as far as its receiving side goes. -/
structure CNode where
  /-- `hSocket` is valid. -/
  hSocket : Bool
  fDisconnect : Bool
  vRecvMsg : List CNetMessage
  /-- The bytes that `recv` has given, all of them. -/
  stream : Bytes
  /-- The messages that `ProcessMessage` was called for, all of them. -/
  processed : List (Bytes × Bytes)
deriving DecidableEq, Repr

/-- A turn of one of the threads. -/
inductive PeerEvent
  /-- `recv` gives bytes. -/
  | receive (pch : Bytes)
  /-- The message thread comes to the peer. Requests for data are waiting; the send buffer is full; `ProcessMessage`, if
  it is called, sets `fDisconnect`. -/
  | handle (fWaiting fSendFull fDisconnect : Bool)
  /-- `fDisconnect` is set elsewhere. -/
  | disconnect
  /-- The socket is closed: by the remote side, after an error or elsewhere; `fLockRecv`: `cs_vRecvMsg` could be
  locked. -/
  | close (fLockRecv : Bool)

namespace CNode

/-- A new peer. -/
def connected : CNode where
  hSocket := true
  fDisconnect := false
  vRecvMsg := []
  stream := []
  processed := []

/-- `CloseSocketDisconnect`. -/
def closeSocketDisconnect (fLockRecv : Bool) (pnode : CNode) : CNode :=
  { pnode with
    fDisconnect := true
    hSocket := false
    vRecvMsg := if fLockRecv then [] else pnode.vRecvMsg }

variable (cr : Crypto) (pchMessageStart : Bytes)

/-- The socket thread has received bytes. -/
def receive (pch : Bytes) (pnode : CNode) : CNode :=
  if !pnode.hSocket then pnode
  else
    let pnode' := { pnode with stream := pnode.stream ++ pch }
    match receiveMsgBytes pchMessageStart pnode.vRecvMsg pch with
    | none => pnode'.closeSocketDisconnect true
    | some vRecvMsg => { pnode' with vRecvMsg }

/-- The message thread comes to the peer. -/
def handle (fWaiting fSendFull fDisconnect : Bool) (pnode : CNode) : CNode :=
  if pnode.fDisconnect then pnode
  -- this maintains the order of responses
  else if fWaiting then pnode
  else
    let r := processMessages cr pchMessageStart fSendFull pnode.vRecvMsg
    let pnode' := { pnode with
      processed := pnode.processed ++ r.message.toList
      fDisconnect := r.message.isSome && fDisconnect }
    -- in case the connection got shut down, its receive buffer was wiped
    let pnode' := if pnode'.fDisconnect then pnode' else { pnode' with vRecvMsg := r.vRecvMsg }
    if r.fOk then pnode' else pnode'.closeSocketDisconnect true

/-- A turn of one of the threads. -/
def step (pnode : CNode) : PeerEvent → CNode
  | .receive pch => pnode.receive pchMessageStart pch
  | .handle fWaiting fSendFull fDisconnect => pnode.handle cr pchMessageStart fWaiting fSendFull fDisconnect
  | .disconnect => { pnode with fDisconnect := true }
  | .close fLockRecv => pnode.closeSocketDisconnect fLockRecv

/-! ### In every run -/

/-- How the messages that are complete, those taken and those waiting, stand to the stream. -/
structure InStep (pnode : CNode) (taken queue : List StreamMessage) (rest : Bytes) (tail : List CNetMessage) :
    Prop where
  split : splitStream pnode.stream = (taken ++ queue, some rest)
  queued : pnode.vRecvMsg = received queue ++ tail
  tail : Tail pchMessageStart rest tail
  start : ∀ m ∈ taken, startsWell pchMessageStart m = true
  processed : pnode.processed = accepted cr pchMessageStart taken
  hSocket : pnode.hSocket = true

/-- How a peer stands to the stream. -/
structure Inv (pnode : CNode) : Prop where
  processed : pnode.processed <+: accepted cr pchMessageStart (splitStream pnode.stream).1
  connected : pnode.fDisconnect = false → ∃ taken queue rest tail, pnode.InStep cr pchMessageStart taken queue rest tail

section Run

variable {cr : Crypto} {pchMessageStart : Bytes} {pnode : CNode} {taken queue : List StreamMessage} {rest : Bytes}
  {tail : List CNetMessage}

theorem InStep.sizes (h : pnode.InStep cr pchMessageStart taken queue rest tail) :
    ∀ m ∈ taken ++ queue, m.1.nMessageSize = m.2.length := by
  intro m hm
  have hsizes := splitStream_sizes pnode.stream m
  rw [h.split] at hsizes
  exact (hsizes hm).1

theorem InStep.sizes_queue (h : pnode.InStep cr pchMessageStart taken queue rest tail) :
    ∀ m ∈ queue, m.1.nMessageSize = m.2.length := fun m hm => h.sizes m (List.mem_append_right _ hm)

/-- What a peer that is in step has handed over. -/
theorem InStep.processed_first (h : pnode.InStep cr pchMessageStart taken queue rest tail) :
    pnode.processed <+: accepted cr pchMessageStart (splitStream pnode.stream).1 := by
  rw [h.processed, h.split]
  exact accepted_mono (List.prefix_append _ _)

/-- **More bytes** for a peer that is in step: they are refused with the stream, or the peer stays in step. -/
theorem InStep.receive (h : pnode.InStep cr pchMessageStart taken queue rest tail) (pch : Bytes) :
    ((splitStream (pnode.stream ++ pch)).2 = none ∧ receiveMsgBytes pchMessageStart pnode.vRecvMsg pch = none) ∨
      ∃ vRecvMsg queue' rest' tail', receiveMsgBytes pchMessageStart pnode.vRecvMsg pch = some vRecvMsg ∧
        { pnode with stream := pnode.stream ++ pch, vRecvMsg }.InStep cr pchMessageStart taken queue' rest' tail' := by
  have hrest : (splitStream pnode.stream).2 = some rest := by rw [h.split]
  have hsplit := splitStream_append hrest pch
  rw [h.split] at hsplit
  have hcomplete := received_complete h.sizes_queue
  -- what the bytes leave behind the messages that wait is what they leave behind the rest of the stream
  have hbehind : receiveMsgBytes pchMessageStart pnode.vRecvMsg pch =
      (receiveMsgBytes pchMessageStart [] (rest ++ pch)).map (received queue ++ ·) := by
    rw [h.queued, receive_behind hcomplete h.tail.lastOk (h.tail.lastOk_append (lastOk_received h.sizes_queue)),
      receive_append lastOk_nil, h.tail.receive]
    rfl
  cases hrest' : (splitStream (rest ++ pch)).2 with
  | none =>
    left
    refine ⟨by rw [hsplit]; exact hrest', ?_⟩
    rw [hbehind, (receive_split pchMessageStart (rest ++ pch)).1 hrest']
    rfl
  | some rest' =>
    right
    obtain ⟨tail', htail', hreceive⟩ := (receive_split pchMessageStart (rest ++ pch)).2 rest' hrest'
    refine ⟨_, queue ++ (splitStream (rest ++ pch)).1, rest', tail', by rw [hbehind, hreceive]; rfl, ?_, ?_, htail',
      h.start, h.processed, h.hSocket⟩
    · rw [hsplit, hrest', List.append_assoc]
    · show received queue ++ (received (splitStream (rest ++ pch)).1 ++ tail') = _
      unfold received
      rw [List.map_append, List.append_assoc]

theorem inv_connected : (connected).Inv cr pchMessageStart := by
  have hstep : (connected).InStep cr pchMessageStart [] [] [] [] :=
    ⟨splitStream_nil, rfl, ⟨rfl, List.forall_mem_nil _⟩, List.forall_mem_nil _, rfl, rfl⟩
  exact ⟨hstep.processed_first, fun _ => ⟨[], [], [], [], hstep⟩⟩

theorem Inv.receive (h : pnode.Inv cr pchMessageStart) (pch : Bytes) :
    (pnode.receive pchMessageStart pch).Inv cr pchMessageStart := by
  have hmore : pnode.processed <+: accepted cr pchMessageStart (splitStream (pnode.stream ++ pch)).1 :=
    h.processed.trans (accepted_mono (splitStream_mono (List.prefix_append _ _)))
  unfold CNode.receive
  cases hsocket : pnode.hSocket with
  | false => exact h
  | true =>
    dsimp only
    rw [if_neg (show ¬ (!true) = true from Bool.false_ne_true)]
    cases hreceive : receiveMsgBytes pchMessageStart pnode.vRecvMsg pch with
    | none => exact ⟨hmore, fun hd => (by cases hd)⟩
    | some vRecvMsg =>
      refine ⟨hmore, fun hd => ?_⟩
      obtain ⟨taken, queue, rest, tail, hstep⟩ := h.connected hd
      rcases hstep.receive pch with ⟨-, hnone⟩ | ⟨v, queue', rest', tail', hsome, hstep'⟩
      · cases hnone.symm.trans hreceive
      · obtain rfl := Option.some.inj (hsome.symm.trans hreceive)
        exact ⟨taken, queue', rest', tail', hsocket ▸ hstep'⟩

/-- **A call of `ProcessMessages`** for a peer that is in step: its messages move on to `ProcessMessage`. -/
theorem InStep.handle (h : pnode.InStep cr pchMessageStart taken queue rest tail) (fSendFull : Bool) :
    ∃ r, processMessages cr pchMessageStart fSendFull pnode.vRecvMsg = r ∧
      (r.fOk = false → r.message = none ∧ ∃ m ∈ queue, startsWell pchMessageStart m = false) ∧
      (r.fOk = true → ∃ taken' queue', { pnode with
        processed := pnode.processed ++ r.message.toList
        vRecvMsg := r.vRecvMsg }.InStep cr pchMessageStart taken' queue' rest tail) := by
  obtain ⟨taken₁, queue', rfl, hleft, htakes⟩ :=
    processMessages_spec cr pchMessageStart h.tail.incomplete fSendFull queue h.sizes_queue
  rw [← h.queued] at hleft htakes
  refine ⟨_, rfl, fun hnot => ?_, fun hok => ?_⟩
  · obtain ⟨hmessage, m, hm, hbad⟩ := htakes.notOk hnot
    exact ⟨hmessage, m, List.mem_append_left _ hm, hbad⟩
  obtain ⟨hstart, haccepted⟩ := htakes.ofOk hok
  refine ⟨taken ++ taken₁, queue', ?_, hleft, h.tail, List.forall_mem_append.mpr ⟨h.start, hstart⟩, ?_, h.hSocket⟩
  · rw [List.append_assoc]
    exact h.split
  · show pnode.processed ++ _ = _
    rw [accepted_append h.start, haccepted, h.processed]

theorem Inv.handle (h : pnode.Inv cr pchMessageStart) (fWaiting fSendFull fDisconnect : Bool) :
    (pnode.handle cr pchMessageStart fWaiting fSendFull fDisconnect).Inv cr pchMessageStart := by
  unfold CNode.handle
  cases hd : pnode.fDisconnect with
  | true => exact h
  | false =>
    rw [if_neg Bool.false_ne_true]
    cases fWaiting with
    | true => exact h
    | false =>
      obtain ⟨taken, queue, rest, tail, hstep⟩ := h.connected hd
      obtain ⟨r, hr, hnot, hok⟩ := hstep.handle fSendFull
      dsimp only
      rw [if_neg Bool.false_ne_true, hr]
      cases hfOk : r.fOk with
      | false =>
        rw [(hnot hfOk).1]
        refine ⟨?_, fun hd' => (by cases hd')⟩
        show (_ ++ [] : List (Bytes × Bytes)) <+: _
        rw [List.append_nil]
        exact h.processed
      | true =>
        obtain ⟨taken', queue', hstep'⟩ := hok hfOk
        rw [if_pos rfl]
        cases hclosed : (r.message.isSome && fDisconnect) with
        | true =>
          rw [if_pos rfl]
          exact ⟨hstep'.processed_first, fun hd' => (by cases hd')⟩
        | false =>
          rw [if_neg Bool.false_ne_true]
          exact ⟨hstep'.processed_first, fun _ => ⟨taken', queue', rest, tail, hd ▸ hstep'⟩⟩

/-- **A good message that waits** is handed over by the next call that can respond. -/
theorem InStep.handle_good {m : StreamMessage} (h : pnode.InStep cr pchMessageStart taken (m :: queue) rest tail)
    (hd : pnode.fDisconnect = false) (hstart : startsWell pchMessageStart m = true)
    (hgood : isGood cr pchMessageStart m = true) :
    (pnode.handle cr pchMessageStart false false false).InStep cr pchMessageStart (taken ++ [m]) queue rest tail ∧
      (pnode.handle cr pchMessageStart false false false).fDisconnect = false ∧
      (pnode.handle cr pchMessageStart false false false).stream = pnode.stream := by
  have hcall : processMessages cr pchMessageStart false pnode.vRecvMsg =
      ⟨received queue ++ tail, some (m.1.getCommand, m.2), true⟩ := by
    rw [h.queued]
    refine (processMessages_cons cr pchMessageStart m (h.sizes_queue m List.mem_cons_self)
      (received queue ++ tail)).trans ?_
    rw [if_pos hstart, if_pos hgood]
  have hhandle : pnode.handle cr pchMessageStart false false false = { pnode with
      processed := pnode.processed ++ [(m.1.getCommand, m.2)]
      fDisconnect := false
      vRecvMsg := received queue ++ tail } := by
    unfold CNode.handle
    rw [hd, if_neg Bool.false_ne_true, if_neg Bool.false_ne_true]
    dsimp only
    rw [hcall]
    rfl
  rw [hhandle]
  refine ⟨⟨?_, rfl, h.tail, ?_, ?_, h.hSocket⟩, rfl, rfl⟩
  · rw [List.append_assoc]
    exact h.split
  · exact List.forall_mem_append.mpr ⟨h.start, List.forall_mem_singleton.mpr hstart⟩
  · show pnode.processed ++ _ = _
    rw [accepted_append h.start, accepted_singleton cr hstart, if_pos hgood, h.processed]

theorem stream_receive (pchMessageStart : Bytes) (hsocket : pnode.hSocket = true) (pch : Bytes) :
    (pnode.receive pchMessageStart pch).stream = pnode.stream ++ pch := by
  unfold CNode.receive
  rw [hsocket, if_neg (show ¬ (!true) = true from Bool.false_ne_true)]
  cases receiveMsgBytes pchMessageStart pnode.vRecvMsg pch <;> rfl

theorem stream_handle (fWaiting fSendFull fDisconnect : Bool) :
    (pnode.handle cr pchMessageStart fWaiting fSendFull fDisconnect).stream = pnode.stream := by
  unfold CNode.handle
  dsimp only
  split_ifs <;> rfl

/-- A stream without a message that is too large cuts nobody off. -/
theorem Inv.connected_receive (h : pnode.Inv cr pchMessageStart) (hd : pnode.fDisconnect = false) {pch : Bytes}
    (hsplit : (splitStream (pnode.stream ++ pch)).2 ≠ none) :
    (pnode.receive pchMessageStart pch).fDisconnect = false := by
  obtain ⟨taken, queue, rest, tail, hstep⟩ := h.connected hd
  rcases hstep.receive pch with ⟨hnone, -⟩ | ⟨v, queue', rest', tail', hsome, -⟩
  · exact absurd hnone hsplit
  · unfold CNode.receive
    rw [hstep.hSocket, if_neg (show ¬ (!true) = true from Bool.false_ne_true), hsome]
    exact hd

/-- Messages of this network cut nobody off. -/
theorem Inv.connected_handle (h : pnode.Inv cr pchMessageStart) (hd : pnode.fDisconnect = false)
    (hwell : ∀ m ∈ (splitStream pnode.stream).1, startsWell pchMessageStart m = true) (fWaiting fSendFull : Bool) :
    (pnode.handle cr pchMessageStart fWaiting fSendFull false).fDisconnect = false := by
  obtain ⟨taken, queue, rest, tail, hstep⟩ := h.connected hd
  obtain ⟨r, hr, hnot, -⟩ := hstep.handle fSendFull
  have hok : r.fOk = true := by
    by_contra hfOk
    obtain ⟨-, m, hm, hbad⟩ := hnot (Bool.eq_false_iff.mpr hfOk)
    have hgood := hwell m (by rw [hstep.split]; exact List.mem_append_right _ hm)
    cases hbad.symm.trans hgood
  unfold CNode.handle
  rw [hd, if_neg Bool.false_ne_true]
  cases fWaiting with
  | true => exact hd
  | false =>
    dsimp only
    rw [if_neg Bool.false_ne_true, hr, hok, if_pos rfl, Bool.and_false, if_neg Bool.false_ne_true]

theorem Inv.step (h : pnode.Inv cr pchMessageStart) (e : PeerEvent) :
    (pnode.step cr pchMessageStart e).Inv cr pchMessageStart := by
  cases e with
  | receive pch => exact h.receive pch
  | handle fWaiting fSendFull fDisconnect => exact h.handle fWaiting fSendFull fDisconnect
  | disconnect => exact ⟨h.processed, fun hd => (by cases hd)⟩
  | close fLockRecv => exact ⟨h.processed, fun hd => (by cases hd)⟩

/-- How a peer stands to the stream, after any turns. -/
theorem inv_run (cr : Crypto) (pchMessageStart : Bytes) (es : List PeerEvent) :
    (Run.exec (CNode.step cr pchMessageStart) connected es).Inv cr pchMessageStart :=
  List.foldlRecOn es _ inv_connected fun _ h e _ => h.step e

end Run

/-- The complete messages at the front of the queue. -/
def waiting (pnode : CNode) : List StreamMessage :=
  (pnode.vRecvMsg.takeWhile CNetMessage.complete).map fun msg => (msg.hdr, msg.vRecv)

section Run

variable {cr : Crypto} {pchMessageStart : Bytes} {pnode : CNode} {taken queue : List StreamMessage} {rest : Bytes}
  {tail : List CNetMessage}

/-- The messages that wait, of a peer that is in step. -/
theorem InStep.waiting_eq (h : pnode.InStep cr pchMessageStart taken queue rest tail) : pnode.waiting = queue := by
  unfold waiting
  rw [h.queued, List.takeWhile_append_of_pos (received_complete h.sizes_queue)]
  have htail : tail.takeWhile CNetMessage.complete = [] := by
    cases tail with
    | nil => rfl
    | cons msg tail =>
      refine List.takeWhile_cons_of_neg ?_
      rw [h.tail.incomplete msg List.mem_cons_self]
      exact Bool.false_ne_true
  rw [htail, List.append_nil]
  unfold received
  rw [List.map_map]
  refine (List.map_congr_left fun m hm => ?_).trans (List.map_id queue)
  show (m.1, m.2 ++ List.replicate (m.1.nMessageSize - m.2.length) 0) = m
  rw [h.sizes_queue m hm, Nat.sub_self, List.replicate_zero, List.append_nil]

end Run

/-- **A message is handed over once, in its order, and only a good one.** After any turns of the threads, whatever bytes
came and however they were cut, the messages that `ProcessMessage` was called for are the first good ones of the stream.
While the peer is connected, the other good ones are the good ones that wait; and the next bytes cut it off exactly when
the stream then holds a message that is too large. -/
theorem peer_runs (cr : Crypto) (pchMessageStart : Bytes) (es : List PeerEvent) :
    let pnode := Run.exec (step cr pchMessageStart) connected es
    pnode.processed <+: accepted cr pchMessageStart (splitStream pnode.stream).1 ∧
      (pnode.fDisconnect = false →
        accepted cr pchMessageStart (splitStream pnode.stream).1 =
          pnode.processed ++ accepted cr pchMessageStart pnode.waiting ∧
        ∀ pch, (pnode.step cr pchMessageStart (.receive pch)).fDisconnect = true ↔
          (splitStream (pnode.stream ++ pch)).2 = none) := by
  have hinv := inv_run cr pchMessageStart es
  revert hinv
  generalize Run.exec (step cr pchMessageStart) connected es = pnode
  intro hinv
  refine ⟨hinv.processed, fun hd => ?_⟩
  obtain ⟨taken, queue, rest, tail, hstep⟩ := hinv.connected hd
  refine ⟨?_, fun pch => ?_⟩
  · rw [hstep.split, hstep.waiting_eq, hstep.processed]
    exact accepted_append hstep.start queue
  · show (pnode.receive pchMessageStart pch).fDisconnect = true ↔ _
    unfold receive
    rw [hstep.hSocket]
    dsimp only
    rw [if_neg (show ¬ (!true) = true from Bool.false_ne_true)]
    rcases hstep.receive pch with ⟨hnone, hrefused⟩ | ⟨v, queue', rest', tail', hsome, hstep'⟩
    · rw [hrefused]
      exact ⟨fun _ => hnone, fun _ => rfl⟩
    · rw [hsome]
      have hsplit := hstep'.split
      dsimp only at hsplit ⊢
      rw [hd, hsplit]
      exact ⟨fun h => (by cases h), fun h => (by cases h)⟩

end CNode

end Morcochain
