import Ctguard.BinaryFormat
import Ctguard.Messages

/-!
# Messages between the daemons

A sink writes a message with a binary archive and sends it as one datagram. The receiving
`input_task` has a buffer of fixed length, puts a zero behind what it received or over
its last byte, and reads the message back.
-/

namespace Ctguard

/-- `source_event` with the strings and numbers that the archives write. -/
structure WireEvent where
  hostname : ByteString
  sourceProgram : ByteString
  sourceDomain : ByteString
  message : ByteString
  controlMessage : Bool
  timeScanned : Int64
  timeSend : Int64
  deriving DecidableEq

/-- The bytes of a text of the program. -/
def ByteString.ofText (s : String) (h : s.toList.length < 2 ^ 64) : ByteString where
  bytes := s.toList.map fun c => .ofNat c.toNat
  length_lt := by simpa using h

namespace WireEvent

def fields : WireEvent ≃
    ByteString × ByteString × ByteString × ByteString × Bool × Int64 × Int64 where
  toFun se := (se.hostname, se.sourceProgram, se.sourceDomain, se.message, se.controlMessage,
    se.timeScanned, se.timeSend)
  invFun p := ⟨p.1, p.2.1, p.2.2.1, p.2.2.2.1, p.2.2.2.2.1, p.2.2.2.2.2.1, p.2.2.2.2.2.2⟩
  left_inv _ := rfl
  right_inv _ := rfl

def int64 : BinaryFormat Int64 :=
  BinaryFormat.uint64.congr ⟨Int64.toUInt64, UInt64.toInt64, fun _ => rfl, fun _ => rfl⟩

/-- `source_event::serialize`. -/
def format : BinaryFormat WireEvent :=
  (BinaryFormat.string.seq <| BinaryFormat.string.seq <| BinaryFormat.string.seq <|
    BinaryFormat.string.seq <| BinaryFormat.bool.seq <| int64.seq int64).congr fields

def isKill (se : WireEvent) : Bool :=
  se.controlMessage && se.message = .ofText "!KILL" (by decide)

/-- The strings before the last field, as they are written. -/
def encodeFront (se : WireEvent) : Bytes :=
  BinaryFormat.string.encode se.hostname ++ (BinaryFormat.string.encode se.sourceProgram ++
    (BinaryFormat.string.encode se.sourceDomain ++ (BinaryFormat.string.encode se.message ++
      (BinaryFormat.bool.encode se.controlMessage ++ int64.encode se.timeScanned))))

theorem encode_eq (se : WireEvent) :
    format.encode se = se.encodeFront ++ littleEndian 8 se.timeSend.toUInt64.toNat := by
  simp only [format, BinaryFormat.congr, fields, BinaryFormat.seq, encodeFront,
    Equiv.coe_fn_mk, List.append_assoc]
  rfl

/-- The number of bytes that are written for an event. -/
def size (se : WireEvent) : ℕ :=
  se.hostname.bytes.length + se.sourceProgram.bytes.length + se.sourceDomain.bytes.length +
    se.message.bytes.length + 49

theorem length_encode (se : WireEvent) : (format.encode se).length = se.size := by
  simp only [encode_eq, encodeFront, List.length_append, BinaryFormat.length_encode_string,
    length_littleEndian, size]
  simp only [BinaryFormat.bool, int64, BinaryFormat.congr, BinaryFormat.uint64,
    length_littleEndian, List.length_singleton]
  omega

theorem int64_ne_nil (n : Int64) : int64.encode n ≠ [] := by
  intro h
  simpa [int64, BinaryFormat.congr, BinaryFormat.uint64] using congrArg List.length h

theorem format_refusesShort : format.RefusesShort := by
  apply BinaryFormat.RefusesShort.congr
  have hint : int64.LeavesNothing := BinaryFormat.uint64_leavesNothing.congr _
  have hlast : int64.RefusesShort := BinaryFormat.uint64_refusesShort.congr _
  have hstring := BinaryFormat.string_leavesNothing
  refine hstring.seq_refusesShort (hstring.seq_refusesShort (hstring.seq_refusesShort
    (hstring.seq_refusesShort (BinaryFormat.bool_leavesNothing.seq_refusesShort
      (hint.seq_refusesShort hlast int64_ne_nil) ?_) ?_) ?_) ?_) ?_
  all_goals
    intro p h
    have hlength := congrArg List.length h
    simp [BinaryFormat.seq, BinaryFormat.bool, int64_ne_nil] at hlength

/-- Replacing the last byte by zero cuts the time of sending down to seven bytes. -/
def cutTimeSend (se : WireEvent) : WireEvent :=
  { se with timeSend := (se.timeSend.toUInt64 % 0x100000000000000).toInt64 }

theorem dropLast_encode (se : WireEvent) :
    (format.encode se).dropLast ++ [0] = format.encode se.cutTimeSend := by
  have hne : littleEndian 8 se.timeSend.toUInt64.toNat ≠ [] := by simp [littleEndian]
  have hcut : se.cutTimeSend.timeSend.toUInt64.toNat = se.timeSend.toUInt64.toNat % 256 ^ 7 := rfl
  have hfront : se.cutTimeSend.encodeFront = se.encodeFront := rfl
  rw [encode_eq, encode_eq, List.dropLast_append_of_ne_nil hne, List.append_assoc,
    dropLast_littleEndian, hcut, hfront]

theorem cutTimeSend_eq_self (se : WireEvent) :
    se.cutTimeSend = se ↔ se.timeSend.toUInt64 < 0x100000000000000 := by
  constructor
  · intro h
    have htime := congrArg (fun e => e.timeSend.toUInt64.toNat) h
    have hmod : se.timeSend.toUInt64.toNat % 2 ^ 56 = se.timeSend.toUInt64.toNat := htime
    rw [UInt64.lt_iff_toNat_lt]
    change se.timeSend.toUInt64.toNat < 2 ^ 56
    omega
  · intro h
    have hlt : se.timeSend.toUInt64.toNat < 2 ^ 56 := h
    have hmod : se.timeSend.toUInt64 % 0x100000000000000 = se.timeSend.toUInt64 := by
      apply UInt64.toNat_inj.mp
      rw [UInt64.toNat_mod]
      exact Nat.mod_eq_of_lt hlt
    rw [cutTimeSend, hmod]
    rfl

end WireEvent

/-- `intervention_cmd::serialize`. -/
def cmdFormat : BinaryFormat (InterventionCmd ByteString) :=
  (BinaryFormat.string.seq BinaryFormat.string).congr
    ⟨fun cmd => (cmd.name, cmd.argument), fun p => ⟨p.1, p.2⟩, fun _ => rfl, fun _ => rfl⟩

namespace InterventionCmd

theorem encode_eq (cmd : InterventionCmd ByteString) :
    cmdFormat.encode cmd =
      BinaryFormat.string.encode cmd.name ++ BinaryFormat.string.encode cmd.argument := rfl

/-- The number of bytes that are written for a command. -/
def size (cmd : InterventionCmd ByteString) : ℕ :=
  cmd.name.bytes.length + cmd.argument.bytes.length + 16

theorem length_encode (cmd : InterventionCmd ByteString) :
    (cmdFormat.encode cmd).length = cmd.size := by
  simp only [encode_eq, List.length_append, BinaryFormat.length_encode_string, size]
  omega

/-- Replacing the last byte by zero: an empty argument is not touched. -/
def cutArgument (cmd : InterventionCmd ByteString) : InterventionCmd ByteString :=
  { cmd with argument := {
      bytes := if cmd.argument.bytes = [] then [] else cmd.argument.bytes.dropLast ++ [0]
      length_lt := by
        have hlt := cmd.argument.length_lt
        split_ifs with h
        · exact Nat.pow_pos (by omega)
        · have hpos := List.length_pos_of_ne_nil h
          simp only [List.length_append, List.length_dropLast, List.length_singleton]
          omega } }

theorem dropLast_encode (cmd : InterventionCmd ByteString) :
    (cmdFormat.encode cmd).dropLast ++ [0] = cmdFormat.encode cmd.cutArgument := by
  have hne : littleEndian 8 cmd.argument.bytes.length ≠ [] := by simp [littleEndian]
  rw [encode_eq, encode_eq, BinaryFormat.encode_string cmd.argument,
    List.dropLast_append_of_ne_nil (by simp [hne]), List.append_assoc,
    BinaryFormat.encode_string cmd.cutArgument.argument]
  congr 1
  by_cases h : cmd.argument.bytes = []
  · have hcut : cmd.cutArgument.argument.bytes = [] := if_pos h
    simp only [hcut, h, List.append_nil]
    exact dropLast_littleEndian 7 0
  · have hcut : cmd.cutArgument.argument.bytes = cmd.argument.bytes.dropLast ++ [0] := if_neg h
    have hpos := List.length_pos_of_ne_nil h
    have hlength : (cmd.argument.bytes.dropLast ++ [0]).length = cmd.argument.bytes.length := by
      rw [List.length_append, List.length_dropLast, List.length_singleton]
      omega
    rw [hcut, hlength, List.dropLast_append_of_ne_nil h, List.append_assoc]

theorem cutArgument_eq_self (cmd : InterventionCmd ByteString) :
    cmd.cutArgument = cmd ↔ ∀ b ∈ cmd.argument.bytes.getLast?, b = 0 := by
  have hiff : cmd.cutArgument = cmd ↔ cmd.cutArgument.argument.bytes = cmd.argument.bytes := by
    constructor
    · exact fun h => congrArg (fun c => c.argument.bytes) h
    · intro h
      have hargument := ByteString.ext h
      cases cmd
      exact congrArg _ hargument
  rw [hiff]
  by_cases h : cmd.argument.bytes = []
  · have hcut : cmd.cutArgument.argument.bytes = [] := if_pos h
    simp [hcut, h]
  · have hcut : cmd.cutArgument.argument.bytes = cmd.argument.bytes.dropLast ++ [0] := if_neg h
    obtain ⟨front, b, hb⟩ := (List.eq_nil_or_concat cmd.argument.bytes).resolve_left h
    rw [hcut, hb]
    simp [eq_comm]

end InterventionCmd

/-- How `send` of a connected datagram socket ends: the whole message is sent, or the
connection is lost and made again or not, or it fails otherwise. -/
inductive SendAnswer where
  | sent
  | refused (reconnected : Bool)
  | failed
  deriving DecidableEq, Repr

/-- `unix_socket_client::send`: the datagram that is on its way when it returns. -/
def clientSend (message : Bytes) : List SendAnswer → Option Bytes
  | .sent :: _ => some message
  | .refused true :: answers => clientSend message answers
  | _ => none

theorem eq_of_clientSend {message datagram : Bytes} {answers : List SendAnswer}
    (h : clientSend message answers = some datagram) : datagram = message := by
  induction answers with
  | nil => cases h
  | cons answer answers ih =>
    cases answer with
    | sent => exact (Option.some.inj h).symm
    | refused reconnected =>
      cases reconnected with
      | true => exact ih h
      | false => cases h
    | failed => cases h

/-- The socket sink of the two scanners. -/
structure SocketSink where
  unitTest : Bool
  hostname : ByteString

/-- What the sink adds to an event before it is sent. -/
def SocketSink.stamp (sink : SocketSink) (now : Int64) (se : WireEvent) : WireEvent :=
  if sink.unitTest then { se with timeSend := 1, hostname := .ofText "unittest" (by decide) }
  else { se with timeSend := now, hostname := sink.hostname }

def SocketSink.send (sink : SocketSink) (now : Int64) (se : WireEvent)
    (answers : List SendAnswer) : Option Bytes :=
  clientSend (WireEvent.format.encode (sink.stamp now se)) answers

/-- The socket sink of the research daemon for interventions. -/
def interventionSend (cmd : InterventionCmd ByteString) (answers : List SendAnswer) :
    Option Bytes :=
  clientSend (cmdFormat.encode cmd) answers

/-- The length of the buffer of both `input_task`s. -/
@[irreducible] def bufferSize : ℕ := 16384

/-- The bytes that are read back: a datagram is cut to the buffer, and the terminator
takes the place of its last byte if it fills the buffer. -/
def received (datagram : Bytes) : Bytes :=
  if bufferSize ≤ datagram.length then datagram.take (bufferSize - 1) ++ [0] else datagram

/-- What the research daemon puts into its queue for a datagram. -/
def researchInput (datagram : Bytes) : Option WireEvent :=
  match WireEvent.format.decode (received datagram) with
  | none => none
  | some (se, _) => if se.isKill then none else some se

/-- What the intervention daemon puts into its queue for a datagram. -/
def interventionInput (datagram : Bytes) : Option (InterventionCmd ByteString) :=
  (cmdFormat.decode (received datagram)).map Prod.fst

theorem received_of_lt {datagram : Bytes} (h : datagram.length < bufferSize) :
    received datagram = datagram := if_neg (by omega)

theorem received_of_eq {datagram : Bytes} (h : datagram.length = bufferSize) :
    received datagram = datagram.dropLast ++ [0] := by
  rw [received, if_pos (Nat.le_of_eq h.symm), List.dropLast_eq_take, h]

theorem length_received_of_ge {datagram : Bytes} (h : bufferSize ≤ datagram.length) :
    (received datagram).length = bufferSize := by
  rw [received, if_pos h, List.length_append, List.length_take, List.length_singleton]
  simp only [bufferSize] at h ⊢
  omega

theorem damaged_received {datagram : Bytes} (h : bufferSize ≤ datagram.length) :
    BinaryFormat.Damaged datagram (received datagram) := by
  have hlength := length_received_of_ge h
  refine ⟨bufferSize - 1, ?_, ?_, ?_⟩
  · simp only [bufferSize] at h ⊢
    omega
  · rw [hlength]
    simp only [bufferSize]
  · have htake : (datagram.take (bufferSize - 1)).length = bufferSize - 1 := by
      rw [List.length_take]
      simp only [bufferSize] at h ⊢
      omega
    rw [received, if_pos h, List.take_left' htake]

/-- The event is queued as it was sent, or it is a kill message and filtered. -/
def WireEvent.Arrives (se : WireEvent) (queued : Option WireEvent) : Prop :=
  queued = some se ∨ (se.isKill = true ∧ queued = none)

/-- The event is short enough, or it fills the buffer and its last byte is zero. -/
def WireEvent.Fits (se : WireEvent) : Prop :=
  se.size < bufferSize ∨ (se.size = bufferSize ∧ se.timeSend.toUInt64 < 0x100000000000000)

def InterventionCmd.Fits (cmd : InterventionCmd ByteString) : Prop :=
  cmd.size < bufferSize ∨
    (cmd.size = bufferSize ∧ ∀ b ∈ cmd.argument.bytes.getLast?, b = 0)

/-- What is read back if the bytes that are read are those of an event. -/
theorem researchInput_of_received {datagram : Bytes} {se : WireEvent}
    (h : received datagram = WireEvent.format.encode se) :
    researchInput datagram = if se.isKill then none else some se := by
  have hdecode : WireEvent.format.decode (received datagram) = some (se, []) :=
    (congrArg WireEvent.format.decode h).trans (WireEvent.format.decode_encode_self se)
  simp only [researchInput, hdecode]

theorem researchInput_of_lt {se : WireEvent} (h : se.size < bufferSize) :
    researchInput (WireEvent.format.encode se) = if se.isKill then none else some se := by
  have hlength : (WireEvent.format.encode se).length < bufferSize := by
    rw [se.length_encode]
    exact h
  exact researchInput_of_received (received_of_lt hlength)

theorem researchInput_of_eq {se : WireEvent} (h : se.size = bufferSize) :
    researchInput (WireEvent.format.encode se) =
      if se.isKill then none else some se.cutTimeSend := by
  have hlength : (WireEvent.format.encode se).length = bufferSize := se.length_encode.trans h
  exact researchInput_of_received ((received_of_eq hlength).trans se.dropLast_encode)

/-- An event that is too long is lost. -/
theorem researchInput_of_gt {se : WireEvent} (h : bufferSize < se.size) :
    researchInput (WireEvent.format.encode se) = none := by
  have hgt : bufferSize < (WireEvent.format.encode se).length := by
    rw [se.length_encode]
    exact h
  have hge := Nat.le_of_lt hgt
  have hshort : (received (WireEvent.format.encode se)).length <
      (WireEvent.format.encode se).length := by
    rwa [length_received_of_ge hge]
  have hdecode := WireEvent.format_refusesShort se _ (damaged_received hge) hshort
  simp only [researchInput, hdecode]

theorem WireEvent.arrives_iff (se : WireEvent) :
    se.Arrives (researchInput (WireEvent.format.encode se)) ↔ se.isKill = true ∨ se.Fits := by
  rcases Nat.lt_trichotomy se.size bufferSize with hlt | heq | hgt
  · rw [researchInput_of_lt hlt]
    cases hkill : se.isKill with
    | true => simp [Arrives, hkill]
    | false => simp [Arrives, Fits, hlt]
  · rw [researchInput_of_eq heq]
    cases hkill : se.isKill with
    | true => simp [Arrives, hkill]
    | false =>
      have hnot : ¬ se.size < bufferSize := by omega
      simp [Arrives, Fits, heq, hkill, ← se.cutTimeSend_eq_self]
  · rw [researchInput_of_gt hgt]
    have hlt : ¬ se.size < bufferSize := by omega
    have hne : se.size ≠ bufferSize := by omega
    simp [Arrives, Fits, hlt, hne]

theorem interventionInput_of_received {datagram : Bytes} {cmd : InterventionCmd ByteString}
    (h : received datagram = cmdFormat.encode cmd) : interventionInput datagram = some cmd := by
  have hdecode : cmdFormat.decode (received datagram) = some (cmd, []) :=
    (congrArg cmdFormat.decode h).trans (cmdFormat.decode_encode_self cmd)
  simp only [interventionInput, hdecode, Option.map_some]

theorem interventionInput_of_eq {cmd : InterventionCmd ByteString} (h : cmd.size = bufferSize) :
    interventionInput (cmdFormat.encode cmd) = some cmd.cutArgument := by
  have hlength : (cmdFormat.encode cmd).length = bufferSize := cmd.length_encode.trans h
  exact interventionInput_of_received ((received_of_eq hlength).trans cmd.dropLast_encode)

theorem InterventionCmd.arrives_iff (cmd : InterventionCmd ByteString) :
    interventionInput (cmdFormat.encode cmd) = some cmd ↔ cmd.Fits := by
  rcases Nat.lt_trichotomy cmd.size bufferSize with hlt | heq | hgt
  · have hlength : (cmdFormat.encode cmd).length < bufferSize := by
      rw [cmd.length_encode]
      exact hlt
    simp [interventionInput_of_received (received_of_lt hlength), Fits, hlt]
  · have hnot : ¬ cmd.size < bufferSize := by omega
    rw [interventionInput_of_eq heq, Option.some.injEq, cmd.cutArgument_eq_self, Fits]
    simp [heq]
  · have hnot : ¬ cmd.size < bufferSize := by omega
    have hne : cmd.size ≠ bufferSize := by omega
    simp only [Fits, hnot, hne, false_and, or_false, iff_false]
    intro h
    obtain ⟨⟨cmd', rest⟩, hdecode, rfl⟩ := Option.map_eq_some_iff.mp h
    have hle := BinaryFormat.length_le_of_decode hdecode
    have hlength : bufferSize ≤ (cmdFormat.encode cmd').length := by
      rw [cmd'.length_encode]
      exact Nat.le_of_lt hgt
    rw [length_received_of_ge hlength, cmd'.length_encode] at hle
    exact Nat.not_lt_of_le hle hgt

/-- A message that was sent arrives exactly if it is shorter than the buffer, or fills it
and loses nothing by ending in a zero. -/
theorem sent_arrives_iff (sink : SocketSink) (now : Int64) (se : WireEvent)
    (cmd : InterventionCmd ByteString) (answers : List SendAnswer) (datagram : Bytes) :
    (sink.send now se answers = some datagram →
      ((sink.stamp now se).Arrives (researchInput datagram) ↔
        (sink.stamp now se).isKill = true ∨ (sink.stamp now se).Fits)) ∧
      (interventionSend cmd answers = some datagram →
        (interventionInput datagram = some cmd ↔ cmd.Fits)) := by
  constructor
  · intro hsend
    rw [eq_of_clientSend hsend]
    exact (sink.stamp now se).arrives_iff
  · intro hsend
    rw [eq_of_clientSend hsend]
    exact cmd.arrives_iff

def ByteString.empty : ByteString := .ofText "" (by decide)

/-- An event of a log line. -/
def lineEvent (line : ByteString) : WireEvent where
  hostname := .empty
  sourceProgram := .ofText "ctguard-logscan" (by decide)
  sourceDomain := .ofText "/var/log/syslog" (by decide)
  message := line
  controlMessage := false
  timeScanned := 1700000000
  timeSend := 0

def blockIp (argument : ByteString) : InterventionCmd ByteString where
  name := .ofText "block_ip" (by decide)
  argument := argument

theorem sent_arrives_iff_line :
    ((SocketSink.stamp ⟨true, .empty⟩ 0 (lineEvent .empty)).Arrives
        (researchInput (WireEvent.format.encode
          (SocketSink.stamp ⟨true, .empty⟩ 0 (lineEvent .empty)))) ↔
      (SocketSink.stamp ⟨true, .empty⟩ 0 (lineEvent .empty)).isKill = true ∨
        (SocketSink.stamp ⟨true, .empty⟩ 0 (lineEvent .empty)).Fits) ∧
      (interventionInput (cmdFormat.encode (blockIp .empty)) = some (blockIp .empty) ↔
        (blockIp .empty).Fits) :=
  ⟨(sent_arrives_iff ⟨true, .empty⟩ 0 (lineEvent .empty) (blockIp .empty)
      [.refused true, .sent] _).1 rfl,
    (sent_arrives_iff ⟨true, .empty⟩ 0 (lineEvent .empty) (blockIp .empty) [.sent] _).2 rfl⟩

/-- A string of one byte, again and again. -/
def ByteString.replicate (n : ℕ) (b : UInt8) (h : n < 2 ^ 64) : ByteString where
  bytes := List.replicate n b
  length_lt := by rwa [List.length_replicate]

theorem long_messages_do_not_arrive :
    (¬ ∀ (sink : SocketSink) (now : Int64) (se : WireEvent) (answers : List SendAnswer)
      (datagram : Bytes), sink.send now se answers = some datagram →
      (sink.stamp now se).Arrives (researchInput datagram)) ∧
      ¬ ∀ (cmd : InterventionCmd ByteString) (answers : List SendAnswer) (datagram : Bytes),
        interventionSend cmd answers = some datagram →
        interventionInput datagram = some cmd := by
  constructor
  · intro h
    let line := lineEvent (.replicate 16384 65 (by omega))
    let sink : SocketSink := ⟨true, .empty⟩
    have hsize : bufferSize < (sink.stamp 0 line).size := by
      have hmessage : (sink.stamp 0 line).message.bytes.length = 16384 := List.length_replicate
      simp only [bufferSize, WireEvent.size]
      omega
    rcases h sink 0 line [.sent] _ rfl with hqueued | ⟨hkill, -⟩
    · rw [researchInput_of_gt hsize] at hqueued
      cases hqueued
    · cases hkill
  · intro h
    let cmd := blockIp (.replicate 16360 65 (by omega))
    have hargument : cmd.argument.bytes = List.replicate 16360 65 := rfl
    have hname : cmd.name.bytes.length = 8 := rfl
    rcases cmd.arrives_iff.mp (h cmd [.sent] _ rfl) with hshort | ⟨-, hlast⟩
    · simp only [bufferSize, InterventionCmd.size, hargument, hname, List.length_replicate] at hshort
      omega
    · have hmem : 65 ∈ cmd.argument.bytes.getLast? := by
        rw [hargument, List.getLast?_replicate, if_neg (by omega)]
        rfl
      cases hlast 65 hmem

end Ctguard
