import Morcochain.Serialize
import Morcochain.Lib.Pieces

/-!
# Messages on the wire

How a message is framed (`CMessageHeader`, `protocol.cpp`; `CNode::EndMessage`, `net.h`) and how the bytes that arrive
are put together again (`CNetMessage`, `CNode::ReceiveMsgBytes`, `net.cpp`), in whatever pieces they come.

* `receiveMsgBytes_eq` : the loop takes its bytes one at a time, as far as the result is concerned.
* `receive_append` : **how a stream is cut into pieces does not matter**.
-/

set_option autoImplicit false

namespace Morcochain

open Codec

/-! ## Headers -/

def messageStartSize : Nat := 4
def commandSize : Nat := 12
def messageSizeOffset : Nat := 16
def checksumOffset : Nat := 20
def headerSize : Nat := 24

/-- `CMessageHeader`. -/
structure CMessageHeader where
  pchMessageStart : Bytes
  pchCommand : Bytes
  nMessageSize : Nat
  nChecksum : Nat
deriving DecidableEq, Repr

/-- `memcpy` into a buffer. -/
def memcpy (buf : Bytes) (pos : Nat) (src : Bytes) : Bytes := buf.take pos ++ src ++ buf.drop (pos + src.length)

/-- `strncpy`, which fills up with zeros. -/
def strncpy (n : Nat) (s : Bytes) : Bytes := s.take n ++ List.replicate (n - s.length) 0

namespace CMessageHeader

variable (hdr : CMessageHeader)

/-- `CMessageHeader()`. -/
def unset (pchMessageStart : Bytes) : CMessageHeader where
  pchMessageStart := pchMessageStart
  pchCommand := [0, 1, 0, 0, 0, 0, 0, 0, 0, 0, 0, 0]
  nMessageSize := 2 ^ 32 - 1
  nChecksum := 0

/-- `CMessageHeader(pszCommand, nMessageSizeIn)`. -/
def ofCommand (pchMessageStart pszCommand : Bytes) (nMessageSizeIn : Nat) : CMessageHeader where
  pchMessageStart := pchMessageStart
  pchCommand := strncpy commandSize pszCommand
  nMessageSize := nMessageSizeIn
  nChecksum := 0

/-- Write a header. -/
def write : Bytes :=
  hdr.pchMessageStart ++ (hdr.pchCommand ++ (writeLE 4 hdr.nMessageSize ++ writeLE 4 hdr.nChecksum))

/-- `GetCommand`. -/
def getCommand : Bytes :=
  if hdr.pchCommand.getD (commandSize - 1) 0 = 0 then hdr.pchCommand.takeWhile (· ≠ 0) else hdr.pchCommand

/-- The loop of `IsValid` over the command: it is printable, and all zeros after the first zero. -/
def validCommand : Bytes → Bool
  | [] => true
  | p1 :: rest => if p1 = 0 then rest.all (· = 0) else if p1 < 0x20 ∨ p1 > 0x7e then false else validCommand rest

/-- `IsValid`. -/
def isValid (pchMessageStart : Bytes) : Bool :=
  hdr.pchMessageStart = pchMessageStart && validCommand hdr.pchCommand && decide (hdr.nMessageSize ≤ maxSize)

end CMessageHeader

/-- Read a header. -/
def readMessageHeader : Reader CMessageHeader := do
  let pchMessageStart ← readBytes messageStartSize
  let pchCommand ← readBytes commandSize
  let nMessageSize ← readUInt 4
  let nChecksum ← readUInt 4
  return { pchMessageStart, pchCommand, nMessageSize, nChecksum }

/-! ## Frames -/

/-- The checksum of a message: the first bytes of its hash. -/
def messageChecksum (cr : Crypto) (vRecv : Bytes) : Nat := cr.hash vRecv % 2 ^ 32

/-- `EndMessage` up to the queue: the size and the checksum are put into the header. -/
def endMessage (cr : Crypto) (ssSend : Bytes) : Bytes :=
  let nSize := ssSend.length - headerSize
  let ssSend := memcpy ssSend messageSizeOffset (writeLE 4 nSize)
  memcpy ssSend checksumOffset (writeLE 4 (messageChecksum cr (ssSend.drop headerSize)))

/-- The bytes of a message: `BeginMessage`, the values of the message and `EndMessage`. -/
def frame (cr : Crypto) (pchMessageStart pszCommand payload : Bytes) : Bytes :=
  endMessage cr ((CMessageHeader.ofCommand pchMessageStart pszCommand 0).write ++ payload)

/-! ## Messages that arrive -/

/-- `CNetMessage`. -/
structure CNetMessage where
  /-- Parsing the header (false) or the data (true). -/
  inData : Bool
  hdrbuf : Bytes
  hdr : CMessageHeader
  nHdrPos : Nat
  vRecv : Bytes
  nDataPos : Nat
deriving DecidableEq, Repr

namespace CNetMessage

/-- `CNetMessage(nTypeIn, nVersionIn)`. -/
def fresh (pchMessageStart : Bytes) : CNetMessage where
  inData := false
  hdrbuf := List.replicate headerSize 0
  hdr := .unset pchMessageStart
  nHdrPos := 0
  vRecv := []
  nDataPos := 0

variable (msg : CNetMessage)

/-- `complete`. -/
def complete : Bool := msg.inData && decide (msg.hdr.nMessageSize = msg.nDataPos)

/-- `readHeader`: the number of bytes that were taken, or none for -1. -/
def readHeader (pch : Bytes) : Option (CNetMessage × Nat) :=
  let nRemaining := headerSize - msg.nHdrPos
  let nCopy := min nRemaining pch.length
  let msg := { msg with
    hdrbuf := memcpy msg.hdrbuf msg.nHdrPos (pch.take nCopy)
    nHdrPos := msg.nHdrPos + nCopy }
  -- if header incomplete, exit
  if msg.nHdrPos < headerSize then some (msg, nCopy)
  else
    match readMessageHeader msg.hdrbuf with
    | none => none
    | some (hdr, hdrbuf) =>
      -- reject messages larger than MAX_SIZE
      if hdr.nMessageSize > maxSize then none
      else
        some ({ msg with
          hdrbuf := hdrbuf
          hdr := hdr
          inData := true
          vRecv := msg.vRecv.take hdr.nMessageSize ++ List.replicate (hdr.nMessageSize - msg.vRecv.length) 0 }, nCopy)

/-- `readData`. -/
def readData (pch : Bytes) : CNetMessage × Nat :=
  let nRemaining := msg.hdr.nMessageSize - msg.nDataPos
  let nCopy := min nRemaining pch.length
  ({ msg with vRecv := memcpy msg.vRecv msg.nDataPos (pch.take nCopy), nDataPos := msg.nDataPos + nCopy }, nCopy)

/-- Absorb network data. -/
def absorb (pch : Bytes) : Option (CNetMessage × Nat) :=
  if !msg.inData then msg.readHeader pch else some (msg.readData pch)

end CNetMessage

/-- Get the current incomplete message, or create a new one. The first component is the messages before it. -/
def currentMessage (pchMessageStart : Bytes) (vRecvMsg : List CNetMessage) : List CNetMessage × CNetMessage :=
  match vRecvMsg.getLast? with
  | none => (vRecvMsg, CNetMessage.fresh pchMessageStart)
  | some msg => if msg.complete then (vRecvMsg, CNetMessage.fresh pchMessageStart) else (vRecvMsg.dropLast, msg)

/-- A turn of the loop of `ReceiveMsgBytes`: the messages, and the number of bytes that were handled. -/
def receiveTurn (pchMessageStart : Bytes) (vRecvMsg : List CNetMessage) (pch : Bytes) :
    Option (List CNetMessage × Nat) :=
  let (before, msg) := currentMessage pchMessageStart vRecvMsg
  (msg.absorb pch).map fun (msg, handled) => (before ++ [msg], handled)

/-- `ReceiveMsgBytes`; none where it returns false. Each turn takes at least one of the bytes. -/
def receiveMsgBytes (pchMessageStart : Bytes) (vRecvMsg : List CNetMessage) (pch : Bytes) : Option (List CNetMessage) :=
  Pieces.consume (receiveTurn pchMessageStart) pch.length vRecvMsg pch

/-! ## One byte at a time -/

section Pieces

variable {msg : CNetMessage} {buf : Bytes} {pos : Nat}

theorem length_memcpy {src : Bytes} (h : pos + src.length ≤ buf.length) : (memcpy buf pos src).length = buf.length := by
  unfold memcpy
  rw [List.length_append, List.length_append, List.length_take, List.length_drop]
  omega

/-- Two pieces are copied one after the other. -/
theorem memcpy_append (h : pos ≤ buf.length) (a c : Bytes) :
    memcpy buf pos (a ++ c) = memcpy (memcpy buf pos a) (pos + a.length) c := by
  have hlen : (buf.take pos ++ a).length = pos + a.length := by
    rw [List.length_append, List.length_take_of_le h]
  have hdrop : (memcpy buf pos a).drop (pos + a.length + c.length) = buf.drop (pos + (a ++ c).length) := by
    unfold memcpy
    rw [← List.drop_drop, List.drop_left' hlen, List.drop_drop, List.length_append, Nat.add_assoc]
  have htake : (memcpy buf pos a).take (pos + a.length) = buf.take pos ++ a := by
    unfold memcpy
    exact List.take_left' hlen
  show buf.take pos ++ (a ++ c) ++ _ = (memcpy buf pos a).take _ ++ c ++ (memcpy buf pos a).drop _
  rw [htake, hdrop, ← List.append_assoc (buf.take pos)]

namespace CNetMessage

/-- The buffers have room for what is missing of the header, or of the data. -/
def Ok (msg : CNetMessage) : Prop :=
  if msg.inData = true then msg.vRecv.length = msg.hdr.nMessageSize ∧ msg.nDataPos ≤ msg.hdr.nMessageSize
  else msg.hdrbuf.length = headerSize ∧ msg.nHdrPos < headerSize ∧ msg.nDataPos = 0

/-- The number of bytes that are missing of the header, or of the data. -/
def missing (msg : CNetMessage) : Nat :=
  if msg.inData = true then msg.hdr.nMessageSize - msg.nDataPos else headerSize - msg.nHdrPos

/-- What a message is after some bytes, when more of its header or data is missing. -/
def advance (msg : CNetMessage) (pch : Bytes) : CNetMessage :=
  if msg.inData = true then
    { msg with vRecv := memcpy msg.vRecv msg.nDataPos pch, nDataPos := msg.nDataPos + pch.length }
  else { msg with hdrbuf := memcpy msg.hdrbuf msg.nHdrPos pch, nHdrPos := msg.nHdrPos + pch.length }

section Data

variable (hdata : msg.inData = true)
include hdata

theorem ok_data : msg.Ok ↔ msg.vRecv.length = msg.hdr.nMessageSize ∧ msg.nDataPos ≤ msg.hdr.nMessageSize :=
  iff_of_eq (if_pos hdata)

theorem missing_data : msg.missing = msg.hdr.nMessageSize - msg.nDataPos := if_pos hdata

theorem advance_data (pch : Bytes) : msg.advance pch =
    { msg with vRecv := memcpy msg.vRecv msg.nDataPos pch, nDataPos := msg.nDataPos + pch.length } := if_pos hdata

theorem absorb_data (pch : Bytes) : msg.absorb pch = some (msg.readData pch) := by
  unfold absorb
  rw [hdata]
  rfl

end Data

section Header

variable (hdata : msg.inData = false)
include hdata

theorem ok_header : msg.Ok ↔ msg.hdrbuf.length = headerSize ∧ msg.nHdrPos < headerSize ∧ msg.nDataPos = 0 :=
  iff_of_eq (if_neg (by rw [hdata]; exact Bool.false_ne_true))

theorem missing_header : msg.missing = headerSize - msg.nHdrPos :=
  if_neg (by rw [hdata]; exact Bool.false_ne_true)

theorem advance_header (pch : Bytes) : msg.advance pch =
    { msg with hdrbuf := memcpy msg.hdrbuf msg.nHdrPos pch, nHdrPos := msg.nHdrPos + pch.length } :=
  if_neg (by rw [hdata]; exact Bool.false_ne_true)

theorem absorb_header (pch : Bytes) : msg.absorb pch = msg.readHeader pch := by
  unfold absorb
  rw [hdata]
  rfl

end Header

theorem inData_advance (msg : CNetMessage) (pch : Bytes) : (msg.advance pch).inData = msg.inData := by
  unfold advance
  by_cases hdata : msg.inData = true
  · rw [if_pos hdata]
  · rw [if_neg hdata]

theorem ok_fresh (pchMessageStart : Bytes) : (fresh pchMessageStart).Ok :=
  (ok_header rfl).mpr ⟨List.length_replicate, show 0 < headerSize by decide, rfl⟩

theorem not_complete_fresh (pchMessageStart : Bytes) : (fresh pchMessageStart).complete = false := rfl

/-- Something is missing of an incomplete message, and of no other. -/
theorem complete_eq_false (h : msg.Ok) : msg.complete = false ↔ 1 ≤ msg.missing := by
  unfold complete
  cases hdata : msg.inData with
  | true =>
    rw [ok_data hdata] at h
    rw [missing_data hdata, Bool.true_and, decide_eq_false_iff_not]
    omega
  | false =>
    rw [ok_header hdata] at h
    rw [missing_header hdata, Bool.false_and]
    exact ⟨fun _ => by omega, fun _ => rfl⟩

theorem missing_advance (msg : CNetMessage) (pch : Bytes) : (msg.advance pch).missing = msg.missing - pch.length := by
  cases hdata : msg.inData with
  | true =>
    rw [missing_data hdata, missing_data ((inData_advance msg pch).trans hdata), advance_data hdata]
    exact (Nat.sub_sub _ _ _).symm
  | false =>
    rw [missing_header hdata, missing_header ((inData_advance msg pch).trans hdata), advance_header hdata]
    exact (Nat.sub_sub _ _ _).symm

theorem ok_advance (h : msg.Ok) {pch : Bytes} (hlt : pch.length < msg.missing) : (msg.advance pch).Ok := by
  cases hdata : msg.inData with
  | true =>
    rw [ok_data hdata] at h
    rw [missing_data hdata] at hlt
    rw [ok_data ((inData_advance msg pch).trans hdata), advance_data hdata]
    dsimp only
    rw [length_memcpy (by omega)]
    omega
  | false =>
    rw [ok_header hdata] at h
    rw [missing_header hdata] at hlt
    rw [ok_header ((inData_advance msg pch).trans hdata), advance_header hdata]
    dsimp only
    rw [length_memcpy (by omega)]
    omega

/-- Bytes that do not make up for what is missing are put into the buffer. -/
theorem absorb_of_lt {pch : Bytes} (h : pch.length < msg.missing) :
    msg.absorb pch = some (msg.advance pch, pch.length) := by
  cases hdata : msg.inData with
  | true =>
    rw [missing_data hdata] at h
    rw [absorb_data hdata, advance_data hdata]
    unfold readData
    dsimp only
    rw [Nat.min_eq_right h.le, List.take_length]
  | false =>
    rw [missing_header hdata] at h
    rw [absorb_header hdata, advance_header hdata]
    unfold readHeader
    dsimp only
    rw [Nat.min_eq_right h.le, List.take_length, if_pos (by omega)]

/-- No more bytes are taken than are missing. -/
theorem absorb_take (msg : CNetMessage) (pch : Bytes) : msg.absorb pch = msg.absorb (pch.take msg.missing) := by
  have hmin : ∀ k, min k pch.length = min k (pch.take k).length := fun k => by
    rw [List.length_take, ← Nat.min_assoc, Nat.min_self]
  have htake : ∀ k, pch.take (min k pch.length) = (pch.take k).take (min k (pch.take k).length) := fun k => by
    rw [← hmin, List.take_take]
    exact congrArg pch.take (by omega)
  cases hdata : msg.inData with
  | true =>
    rw [missing_data hdata, absorb_data hdata, absorb_data hdata]
    unfold readData
    dsimp only
    rw [htake, ← hmin]
  | false =>
    rw [missing_header hdata, absorb_header hdata, absorb_header hdata]
    unfold readHeader
    dsimp only
    rw [htake, ← hmin]

/-- What is left of `readHeader` once the header is complete. -/
theorem readHeader_some {pch : Bytes} {r : CNetMessage × Nat} (h : msg.readHeader pch = some r)
    (hle : headerSize ≤ msg.nHdrPos + pch.length) :
    r.1.inData = true ∧ r.1.vRecv.length = r.1.hdr.nMessageSize ∧ r.1.nDataPos = msg.nDataPos ∧
      r.2 = min (headerSize - msg.nHdrPos) pch.length := by
  unfold readHeader at h
  dsimp only at h
  rw [if_neg (by omega)] at h
  cases hread : readMessageHeader
      (memcpy msg.hdrbuf msg.nHdrPos (pch.take (min (headerSize - msg.nHdrPos) pch.length))) with
  | none =>
    rw [hread] at h
    cases h
  | some read =>
    rw [hread] at h
    dsimp only at h
    by_cases hsize : read.1.nMessageSize > maxSize
    · rw [if_pos hsize] at h
      cases h
    · rw [if_neg hsize] at h
      obtain rfl := Option.some.inj h
      refine ⟨rfl, ?_, rfl, rfl⟩
      dsimp only
      rw [List.length_append, List.length_take, List.length_replicate]
      omega

/-- What a turn leaves of a message, and how many bytes it takes. -/
theorem absorb_ok (h : msg.Ok) {pch : Bytes} {r : CNetMessage × Nat} (ha : msg.absorb pch = some r) :
    r.1.Ok ∧ r.2 = min msg.missing pch.length := by
  by_cases hlt : pch.length < msg.missing
  · obtain rfl := Option.some.inj ((absorb_of_lt hlt).symm.trans ha)
    exact ⟨ok_advance h hlt, (Nat.min_eq_right hlt.le).symm⟩
  · cases hdata : msg.inData with
    | true =>
      rw [ok_data hdata] at h
      rw [missing_data hdata] at hlt ⊢
      rw [absorb_data hdata] at ha
      obtain rfl := Option.some.inj ha
      refine ⟨(ok_data (show (msg.readData pch).1.inData = true from hdata)).mpr ?_, rfl⟩
      unfold readData
      dsimp only
      rw [length_memcpy (by rw [List.length_take]; omega)]
      omega
    | false =>
      rw [ok_header hdata] at h
      rw [missing_header hdata] at hlt ⊢
      rw [absorb_header hdata] at ha
      obtain ⟨hin, hlen, hpos, htaken⟩ := readHeader_some ha (by omega)
      exact ⟨(ok_data hin).mpr ⟨hlen, by omega⟩, htaken⟩

/-- A turn that is handed more than one byte, of those that are missing, takes the first one and then the others. -/
theorem absorb_cons (h : msg.Ok) (hmissing : 2 ≤ msg.missing) (b : UInt8) (pch : Bytes) :
    msg.absorb (b :: pch) = ((msg.advance [b]).absorb pch).map fun r => (r.1, r.2 + 1) := by
  have hlen (k m : Nat) (hk : 2 ≤ k - m) :
      min (k - m) (b :: pch).length = min (k - (m + 1)) pch.length + 1 := by
    rw [List.length_cons]
    omega
  have hcopy (k m : Nat) (hk : 2 ≤ k - m) :
      (b :: pch).take (min (k - m) (b :: pch).length) = [b] ++ pch.take (min (k - (m + 1)) pch.length) := by
    rw [hlen k m hk, List.take_succ_cons]
    rfl
  have hadd (m n : Nat) : m + (n + 1) = m + 1 + n := by omega
  cases hdata : msg.inData with
  | true =>
    rw [ok_data hdata] at h
    rw [missing_data hdata] at hmissing
    rw [absorb_data hdata, absorb_data ((inData_advance msg [b]).trans hdata), advance_data hdata]
    unfold readData
    dsimp only
    rw [hcopy _ _ hmissing, hlen _ _ hmissing, memcpy_append (by omega), hadd _ (min _ _)]
    rfl
  | false =>
    rw [ok_header hdata] at h
    rw [missing_header hdata] at hmissing
    rw [absorb_header hdata, absorb_header ((inData_advance msg [b]).trans hdata), advance_header hdata]
    unfold readHeader
    dsimp only
    rw [hcopy _ _ hmissing, hlen _ _ hmissing, memcpy_append (by omega), hadd _ (min _ _), List.length_singleton]
    generalize min (headerSize - (msg.nHdrPos + 1)) pch.length = nCopy
    by_cases hlt : msg.nHdrPos + 1 + nCopy < headerSize
    · rw [if_pos hlt, if_pos hlt]
      rfl
    · rw [if_neg hlt, if_neg hlt]
      cases readMessageHeader (memcpy (memcpy msg.hdrbuf msg.nHdrPos [b]) (msg.nHdrPos + 1) (pch.take nCopy)) with
      | none => rfl
      | some read =>
        dsimp only
        by_cases hsize : read.1.nMessageSize > maxSize
        · rw [if_pos hsize, if_pos hsize]
          rfl
        · rw [if_neg hsize, if_neg hsize]
          rfl

end CNetMessage

end Pieces

/-! ## A stream in pieces -/

section Stream

variable {pchMessageStart : Bytes} {vRecvMsg : List CNetMessage}

/-- The last message that arrived is in order. Those before it are not touched again. -/
def LastOk (vRecvMsg : List CNetMessage) : Prop := ∀ msg, vRecvMsg.getLast? = some msg → msg.Ok

theorem lastOk_nil : LastOk [] := fun _ h => by cases h

theorem lastOk_append {before : List CNetMessage} {msg : CNetMessage} (h : msg.Ok) : LastOk (before ++ [msg]) := by
  intro msg' h'
  rw [List.getLast?_concat] at h'
  exact Option.some.inj h' ▸ h

theorem lastOk_singleton {msg : CNetMessage} (h : msg.Ok) : LastOk [msg] := fun _ h' => Option.some.inj h' ▸ h

theorem currentMessage_nil : currentMessage pchMessageStart [] = ([], CNetMessage.fresh pchMessageStart) := rfl

theorem currentMessage_of_complete {before : List CNetMessage} {msg : CNetMessage} (h : msg.complete = true) :
    currentMessage pchMessageStart (before ++ [msg]) = (before ++ [msg], CNetMessage.fresh pchMessageStart) := by
  unfold currentMessage
  rw [List.getLast?_concat]
  exact if_pos h

theorem currentMessage_of_incomplete {before : List CNetMessage} {msg : CNetMessage} (h : msg.complete = false) :
    currentMessage pchMessageStart (before ++ [msg]) = (before, msg) := by
  unfold currentMessage
  rw [List.getLast?_concat, List.dropLast_concat]
  exact if_neg (by rw [h]; exact Bool.false_ne_true)

/-- The current message is in order, and it is incomplete. -/
theorem currentMessage_ok (pchMessageStart : Bytes) (h : LastOk vRecvMsg) :
    (currentMessage pchMessageStart vRecvMsg).2.Ok ∧ (currentMessage pchMessageStart vRecvMsg).2.complete = false := by
  rcases List.eq_nil_or_concat vRecvMsg with rfl | ⟨before, msg, rfl⟩
  · exact ⟨CNetMessage.ok_fresh _, rfl⟩
  · rw [List.concat_eq_append] at h ⊢
    cases hc : msg.complete with
    | true =>
      rw [currentMessage_of_complete hc]
      exact ⟨CNetMessage.ok_fresh _, rfl⟩
    | false =>
      rw [currentMessage_of_incomplete hc]
      exact ⟨h msg List.getLast?_concat, hc⟩

/-- A turn, told from the current message. -/
theorem receiveTurn_eq {before : List CNetMessage} {msg : CNetMessage}
    (h : currentMessage pchMessageStart vRecvMsg = (before, msg)) (pch : Bytes) :
    receiveTurn pchMessageStart vRecvMsg pch = (msg.absorb pch).map fun r => (before ++ [r.1], r.2) := by
  unfold receiveTurn
  rw [h]

/-- **A turn takes its first byte alone, or that one and what a turn from there takes.** -/
theorem receiveTurn_oneByOne : Pieces.OneByOne (receiveTurn pchMessageStart) LastOk where
  keeps vRecvMsg b v' hok h := by
    obtain ⟨hmsg, -⟩ := currentMessage_ok pchMessageStart hok
    unfold Pieces.takeOne at h
    rw [receiveTurn_eq rfl, Option.map_map] at h
    obtain ⟨r, ha, rfl⟩ := Option.map_eq_some_iff.mp h
    exact lastOk_append (CNetMessage.absorb_ok hmsg ha).1
  single vRecvMsg b r hok h := by
    obtain ⟨hmsg, hinc⟩ := currentMessage_ok pchMessageStart hok
    rw [receiveTurn_eq rfl] at h
    obtain ⟨r, ha, rfl⟩ := Option.map_eq_some_iff.mp h
    have hone := (CNetMessage.absorb_ok hmsg ha).2
    have hmissing := (CNetMessage.complete_eq_false hmsg).mp hinc
    rw [List.length_singleton] at hone
    show r.2 = 1
    omega
  turn_cons vRecvMsg b c pch hok := by
    obtain ⟨hmsg, hinc⟩ := currentMessage_ok pchMessageStart hok
    have hmissing := (CNetMessage.complete_eq_false hmsg).mp hinc
    cases hcur : currentMessage pchMessageStart vRecvMsg with
    | mk before msg =>
    rw [hcur] at hmsg hinc hmissing
    dsimp only at hmsg hinc hmissing
    rw [receiveTurn_eq hcur, receiveTurn_eq hcur]
    by_cases hlast : msg.missing = 1
    · left
      rw [CNetMessage.absorb_take, hlast]
      rfl
    · right
      have hlt : ([b] : Bytes).length < msg.missing := by
        rw [List.length_singleton]
        omega
      have hok' := CNetMessage.ok_advance hmsg hlt
      have hinc' : (msg.advance [b]).complete = false := by
        rw [CNetMessage.complete_eq_false hok', CNetMessage.missing_advance, List.length_singleton]
        omega
      refine ⟨before ++ [msg.advance [b]], ?_, ?_⟩
      · rw [CNetMessage.absorb_of_lt hlt]
        rfl
      · rw [receiveTurn_eq (currentMessage_of_incomplete hinc'), CNetMessage.absorb_cons hmsg (by omega),
        Option.map_map,
          Option.map_map]
        rfl

/-- A byte that arrives. -/
def receiveByte (pchMessageStart : Bytes) : List CNetMessage → UInt8 → Option (List CNetMessage) :=
  Pieces.takeOne (receiveTurn pchMessageStart)

/-- **The bytes of a piece are taken one by one**, as far as the result goes. -/
theorem receiveMsgBytes_eq (h : LastOk vRecvMsg) (pch : Bytes) :
    receiveMsgBytes pchMessageStart vRecvMsg pch = pch.foldlM (receiveByte pchMessageStart) vRecvMsg :=
  Pieces.consume_eq receiveTurn_oneByOne pch _ vRecvMsg h le_rfl

theorem receiveMsgBytes_lastOk (h : LastOk vRecvMsg) {pch : Bytes} {vRecvMsg' : List CNetMessage}
    (hr : receiveMsgBytes pchMessageStart vRecvMsg pch = some vRecvMsg') : LastOk vRecvMsg' := by
  rw [receiveMsgBytes_eq h] at hr
  exact Pieces.foldlM_keeps receiveTurn_oneByOne h hr

/-- **How a stream is cut into pieces does not matter**: two pieces leave what they leave as one. -/
theorem receive_append (h : LastOk vRecvMsg) (a b : Bytes) :
    receiveMsgBytes pchMessageStart vRecvMsg (a ++ b) =
      (receiveMsgBytes pchMessageStart vRecvMsg a).bind fun v => receiveMsgBytes pchMessageStart v b :=
  Pieces.consume_append receiveTurn_oneByOne h a b

end Stream

end Morcochain
