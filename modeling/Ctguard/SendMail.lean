import Ctguard.HandleTrace
import Ctguard.MailBody

/-!
# Sending a mail

`send_mail` opens a socket for one of the addresses of the mail server and holds the dialogue
of a mail over it. What `socket` and `connect` answer for an address is kept with the address;
`connect` answers `0` or `-1`. The loop over the addresses takes every answer but `1` for a
success, so it never gets past an address that has given it a socket.
-/

namespace Ctguard.SendMail

open MailBody (envelop terminator)

/-- An address, with the answers of `socket` and `connect` for it. -/
structure AddrInfo where
  socket : ℤ
  connect : ℤ
  connect_eq : connect = 0 ∨ connect = -1

/-- Both calls succeed. -/
def AddrInfo.Works (rp : AddrInfo) : Prop := rp.socket ≠ -1 ∧ rp.connect = 0

instance (rp : AddrInfo) : Decidable rp.Works := inferInstanceAs (Decidable (_ ∧ _))

/-- A call about a socket. One that opens it has succeeded, one that talks over it may have
failed. -/
inductive Call where
  | opened (fd : ℤ)
  | closed (fd : ℤ)
  | send (fd : ℤ) (text : String)
  | recv (fd : ℤ)
  deriving DecidableEq, Repr

/-- What `send_mail` throws. -/
inductive MailException where
  | noAddressInformation (server port what : String)
  | canNotConnect (server port : String)
  | noWelcome
  | commandNotSent (cmd : String)
  | noResponse (cmd : String)
  | bufferTooShort (cmd : String) (ret : ℕ)
  | refused (cmd code answer : String)
  | envelopNotSent (envelop : String)
  | messageNotSent (msg : String)
  | terminatorNotSent
  | noMessageId
  | dataBufferTooShort (ret : ℕ)
  | dataRefused (code answer : String)
  deriving DecidableEq, Repr

def MailException.what : MailException → String
  | .noAddressInformation server port what =>
    "Can not get address information for '" ++ server ++ ":" ++ port ++ "': " ++ what
  | .canNotConnect server port => "Can not connect to '" ++ server ++ ":" ++ port ++ "'"
  | .noWelcome => "Can not receive welcome message"
  | .commandNotSent cmd => "Can not send command '" ++ cmd ++ "'"
  | .noResponse cmd => "Can not receive response for command '" ++ cmd
  | .bufferTooShort cmd ret =>
    "Receive buffer for command '" ++ cmd ++ "' too short: " ++ toString ret ++ "/2048"
  | .refused cmd code answer => "Command '" ++ cmd ++ "' does not return '" ++ code ++
    "', instead it returns '" ++ answer ++ "'"
  | .envelopNotSent envelop => "Can not send evelop '" ++ envelop ++ "'"
  | .messageNotSent msg => "Can not send message '" ++ msg ++ "'"
  | .terminatorNotSent => "Can not send the message terminator"
  | .noMessageId => "Can not receive message id"
  | .dataBufferTooShort ret =>
    "Receive buffer for mail message data too short: " ++ toString ret ++ "/256"
  | .dataRefused code answer =>
    "Mail message data does not return '" ++ code ++ "', instead it returns '" ++ answer ++ "'"

section Dialogue

/-- Texts that are sent one after another, and the answer that is asked for: its code, the
size of the buffer for it, and what is thrown if something goes wrong. -/
structure Exchange where
  texts : List (String × MailException)
  code : String
  bufferSize : ℕ
  noAnswer : MailException
  tooShort : ℕ → MailException
  refused : String → MailException

def sendCmd (cmd code : String) : Exchange where
  texts := [(cmd, .commandNotSent cmd)]
  code := code
  bufferSize := 2048
  noAnswer := .noResponse cmd
  tooShort := .bufferTooShort cmd
  refused := .refused cmd code

def sendMailMessage (addresses : MailAddresses) (subject msg code : String) : Exchange where
  texts := [(envelop addresses subject, .envelopNotSent (envelop addresses subject)),
    (msg, .messageNotSent msg), (terminator, .terminatorNotSent)]
  code := code
  bufferSize := 256
  noAnswer := .noMessageId
  tooShort := .dataBufferTooShort
  refused := .dataRefused code

/-- The answers of the system during an exchange. -/
structure Answers where
  sends : ℕ → Bool
  recv : Option (List Char)

/-- The first text that is not sent ends the sending. -/
def sendTexts (socket : ℤ) : (ℕ → Bool) → List (String × MailException) →
    List Call × Except MailException Unit
  | _, [] => ([], .ok ())
  | sends, (text, e) :: texts =>
    if sends 0 then
      let more := sendTexts socket (fun n => sends (n + 1)) texts
      (.send socket text :: more.1, more.2)
    else ([.send socket text], .error e)

/-- The answer, which ends at the first zero, is compared with the code. -/
def checkAnswer (x : Exchange) : Option (List Char) → Except MailException Unit
  | none => .error x.noAnswer
  | some answer =>
    if x.bufferSize - 1 ≤ answer.length then .error (x.tooShort answer.length)
    else
      let text := answer.takeWhile (· ≠ '\x00')
      if text.take x.code.length = x.code.toList then .ok ()
      else .error (x.refused (String.ofList text))

def exchange (socket : ℤ) (x : Exchange) (answers : Answers) :
    List Call × Except MailException Unit :=
  let sent := sendTexts socket answers.sends x.texts
  match sent.2 with
  | .error e => (sent.1, .error e)
  | .ok () => (sent.1 ++ [.recv socket], checkAnswer x answers.recv)

/-- One exchange after another, up to the first that fails. -/
def exchangeAll (socket : ℤ) : (ℕ → Answers) → List Exchange →
    List Call × Except MailException Unit
  | _, [] => ([], .ok ())
  | answers, x :: xs =>
    let first := exchange socket x (answers 0)
    match first.2 with
    | .error e => (first.1, .error e)
    | .ok () =>
      let more := exchangeAll socket (fun n => answers (n + 1)) xs
      (first.1 ++ more.1, more.2)

def dialogue (hostname : String) (addresses : MailAddresses) (subject msg : String) :
    List Exchange :=
  [sendCmd ("EHLO " ++ hostname ++ "\r\n") "250",
    sendCmd ("MAIL From:<" ++ addresses.mailFromaddr ++ ">\r\n") "250",
    sendCmd ("RCPT To:<" ++ addresses.mailToaddr ++ ">\r\n") "250",
    sendCmd "DATA\r\n" "354",
    sendMailMessage addresses subject msg "250",
    sendCmd "QUIT\r\n" "221"]

end Dialogue

/-- The loop over the addresses: what it does, the addresses left when it is over, and the
socket it has. -/
def connectLoop : List AddrInfo → ℤ → List Call × List AddrInfo × ℤ
  | [], socket => ([], [], socket)
  | rp :: rest, _ =>
    if rp.socket = -1 then connectLoop rest rp.socket
    else if rp.connect ≠ 1 then ([.opened rp.socket], rp :: rest, rp.socket)
    else
      let more := connectLoop rest rp.socket
      (.opened rp.socket :: .closed rp.socket :: more.1, more.2)

/-- What the function is given. -/
structure Request where
  smtpserver : String
  smtpport : String
  addresses : MailAddresses
  subject : String
  msg : String

/-- The answers of the system once a socket is there. -/
structure Session where
  hostname : String
  welcome : Bool
  answers : ℕ → Answers

/-- The socket is closed however the dialogue ends. -/
def converse (r : Request) (t : Session) (socket : ℤ) : List Call × Except MailException Unit :=
  if t.welcome then
    let said := exchangeAll socket t.answers (dialogue t.hostname r.addresses r.subject r.msg)
    (.recv socket :: said.1 ++ [.closed socket], said.2)
  else ([.recv socket, .closed socket], .error .noWelcome)

def sendMail (r : Request) (t : Session) (addresses : Except String (List AddrInfo)) :
    List Call × Except MailException Unit :=
  match addresses with
  | .error what => ([], .error (.noAddressInformation r.smtpserver r.smtpport what))
  | .ok addresses =>
    let connected := connectLoop addresses (-1)
    match connected.2.1 with
    | [] => (connected.1, .error (.canNotConnect r.smtpserver r.smtpport))
    | _ :: _ =>
      let talk := converse r t connected.2.2
      (connected.1 ++ talk.1, talk.2)

section Sockets

/-- The socket over which a call talks. -/
def Call.talks : Call → Option ℤ
  | .send fd _ => some fd
  | .recv fd => some fd
  | _ => none

def Call.event : Call → Option (HandleTrace.Event ℤ)
  | .opened fd => some (.acquire fd)
  | .closed fd => some (.release fd)
  | _ => none

/-- The sockets that are open after some calls. -/
def openSockets (calls : List Call) : Multiset ℤ :=
  HandleTrace.held 0 (calls.filterMap Call.event)

/-- The function talks to the first address that works, has closed every other socket, and
cannot connect exactly if no address works. -/
structure FallsBack (r : Request) (t : Session) (addresses : List AddrInfo) : Prop where
  chosen : (connectLoop addresses (-1)).2.1 = addresses.dropWhile fun rp => ¬ rp.Works
  open_sockets : openSockets (connectLoop addresses (-1)).1 =
    (addresses.find? fun rp => rp.Works).elim 0 fun rp => {rp.socket}
  talks : ∀ call ∈ (sendMail r t (.ok addresses)).1, ∀ fd, call.talks = some fd →
    ∃ rp, addresses.find? (fun rp => rp.Works) = some rp ∧ fd = rp.socket
  throws : (sendMail r t (.ok addresses)).2 = .error (.canNotConnect r.smtpserver r.smtpport) ↔
    ∀ rp ∈ addresses, ¬ rp.Works

end Sockets

section Talking

variable {socket : ℤ} {e : MailException}

/-- What can go wrong in an exchange. -/
def Exchange.Throws (x : Exchange) (e : MailException) : Prop :=
  (∃ text, (text, e) ∈ x.texts) ∨ e = x.noAnswer ∨ (∃ ret, e = x.tooShort ret) ∨
    ∃ answer, e = x.refused answer

theorem sendTexts_throws {sends : ℕ → Bool} {texts : List (String × MailException)}
    (h : (sendTexts socket sends texts).2 = .error e) : ∃ text, (text, e) ∈ texts := by
  induction texts generalizing sends with
  | nil => cases h
  | cons first texts ih =>
    rw [sendTexts] at h
    split at h
    · obtain ⟨text, hmem⟩ := ih h
      exact ⟨text, List.mem_cons_of_mem _ hmem⟩
    · cases h
      exact ⟨first.1, List.mem_cons_self⟩

theorem checkAnswer_throws {x : Exchange} {answer : Option (List Char)}
    (h : checkAnswer x answer = .error e) : x.Throws e := by
  cases answer with
  | none =>
    cases h
    exact .inr (.inl rfl)
  | some answer =>
    simp only [checkAnswer] at h
    split at h
    · cases h
      exact .inr (.inr (.inl ⟨_, rfl⟩))
    split at h
    · cases h
    · cases h
      exact .inr (.inr (.inr ⟨_, rfl⟩))

theorem exchange_throws {x : Exchange} {answers : Answers}
    (h : (exchange socket x answers).2 = .error e) : x.Throws e := by
  rw [exchange] at h
  cases hsent : (sendTexts socket answers.sends x.texts).2 with
  | error e' =>
    simp only [hsent] at h
    cases h
    exact .inl (sendTexts_throws hsent)
  | ok u =>
    simp only [hsent] at h
    exact checkAnswer_throws h

theorem exchangeAll_throws {answers : ℕ → Answers} {xs : List Exchange}
    (h : (exchangeAll socket answers xs).2 = .error e) : ∃ x ∈ xs, x.Throws e := by
  induction xs generalizing answers with
  | nil => cases h
  | cons x xs ih =>
    rw [exchangeAll] at h
    cases hfirst : (exchange socket x (answers 0)).2 with
    | error e' =>
      simp only [hfirst] at h
      cases h
      exact ⟨x, List.mem_cons_self, exchange_throws hfirst⟩
    | ok u =>
      simp only [hfirst] at h
      obtain ⟨y, hy, hthrows⟩ := ih h
      exact ⟨y, List.mem_cons_of_mem _ hy, hthrows⟩

/-- Whatever goes wrong in the dialogue, it is reported in another way than a connection that
is not there. -/
theorem converse_throws {r : Request} {t : Session} :
    (converse r t socket).2 ≠ .error (.canNotConnect r.smtpserver r.smtpport) := by
  intro h
  rw [converse] at h
  split at h
  · obtain ⟨x, hx, hthrows⟩ := exchangeAll_throws h
    simp only [dialogue, List.mem_cons, List.not_mem_nil, or_false] at hx
    rcases hx with rfl | rfl | rfl | rfl | rfl | rfl <;>
      simp [Exchange.Throws, sendCmd, sendMailMessage] at hthrows
  · cases h

theorem sendTexts_talks {sends : ℕ → Bool} {texts : List (String × MailException)} {call : Call}
    (h : call ∈ (sendTexts socket sends texts).1) : call.talks = some socket := by
  induction texts generalizing sends with
  | nil => cases h
  | cons first texts ih =>
    rw [sendTexts] at h
    split at h
    · rcases List.mem_cons.mp h with rfl | h
      · rfl
      · exact ih h
    · rw [List.mem_singleton.mp h]
      rfl

theorem exchange_talks {x : Exchange} {answers : Answers} {call : Call}
    (h : call ∈ (exchange socket x answers).1) : call.talks = some socket := by
  rw [exchange] at h
  split at h
  · exact sendTexts_talks h
  · rcases List.mem_append.mp h with h | h
    · exact sendTexts_talks h
    · rw [List.mem_singleton.mp h]
      rfl

theorem exchangeAll_talks {answers : ℕ → Answers} {xs : List Exchange} {call : Call}
    (h : call ∈ (exchangeAll socket answers xs).1) : call.talks = some socket := by
  induction xs generalizing answers with
  | nil => cases h
  | cons x xs ih =>
    rw [exchangeAll] at h
    split at h
    · exact exchange_talks h
    · rcases List.mem_append.mp h with h | h
      · exact exchange_talks h
      · exact ih h

/-- The dialogue talks over its socket, and closes it in the end. -/
theorem converse_calls (r : Request) (t : Session) (socket : ℤ) :
    ∃ talk, (converse r t socket).1 = talk ++ [.closed socket] ∧
      ∀ call ∈ talk, call.talks = some socket := by
  rw [converse]
  split
  · refine ⟨_, rfl, ?_⟩
    intro call hcall
    rcases List.mem_cons.mp hcall with rfl | hcall
    · rfl
    · exact exchangeAll_talks hcall
  · refine ⟨[.recv socket], rfl, ?_⟩
    intro call hcall
    rw [List.mem_singleton.mp hcall]
    rfl

theorem converse_talks {r : Request} {t : Session} {call : Call} {fd : ℤ}
    (h : call ∈ (converse r t socket).1) (htalks : call.talks = some fd) : fd = socket := by
  obtain ⟨talk, heq, htalk⟩ := converse_calls r t socket
  rw [heq] at h
  rcases List.mem_append.mp h with h | h
  · exact Option.some.inj (htalks.symm.trans (htalk call h))
  · rw [List.mem_singleton.mp h] at htalks
    cases htalks

end Talking

section Connecting

variable {addresses pre rest : List AddrInfo} {rp : AddrInfo}

/-- Addresses without a socket are passed over. -/
theorem connectLoop_of_forall (h : ∀ rp ∈ addresses, rp.socket = -1) :
    connectLoop addresses (-1) = ([], [], -1) := by
  induction addresses with
  | nil => rfl
  | cons rp addresses ih =>
    obtain ⟨hrp, hmore⟩ := List.forall_mem_cons.mp h
    rw [connectLoop, if_pos hrp, hrp]
    exact ih hmore

/-- The first socket ends the loop, whatever `connect` answers. -/
theorem connectLoop_append (hpre : ∀ rp ∈ pre, rp.socket = -1) (hrp : rp.socket ≠ -1) :
    connectLoop (pre ++ rp :: rest) (-1) = ([.opened rp.socket], rp :: rest, rp.socket) := by
  have hconnect : rp.connect ≠ 1 := by
    rcases rp.connect_eq with h | h
    all_goals
      rw [h]
      decide
  induction pre with
  | nil => rw [List.nil_append, connectLoop, if_neg hrp, if_pos hconnect]
  | cons first pre ih =>
    obtain ⟨hfirst, hmore⟩ := List.forall_mem_cons.mp hpre
    rw [List.cons_append, connectLoop, if_pos hfirst, hfirst]
    exact ih hmore

theorem exists_socket_or_forall (addresses : List AddrInfo) :
    (∃ pre rp rest, addresses = pre ++ rp :: rest ∧ (∀ rp ∈ pre, rp.socket = -1) ∧
      rp.socket ≠ -1) ∨ ∀ rp ∈ addresses, rp.socket = -1 := by
  cases hfind : addresses.find? (fun rp => rp.socket ≠ -1) with
  | none =>
    refine .inr ?_
    intro rp hrp
    simpa using List.find?_eq_none.mp hfind rp hrp
  | some rp =>
    obtain ⟨hrp, pre, rest, heq, hpre⟩ := List.find?_eq_some_iff_append.mp hfind
    exact .inl ⟨pre, rp, rest, heq, by simpa using hpre, by simpa using hrp⟩

theorem not_works_of_socket (h : rp.socket = -1) : ¬ rp.Works := fun hworks => hworks.1 h

theorem dropWhile_append (hpre : ∀ rp ∈ pre, rp.socket = -1) :
    ((pre ++ rest).dropWhile fun rp => ¬ rp.Works) = rest.dropWhile fun rp => ¬ rp.Works := by
  rw [List.dropWhile_append, if_pos]
  simpa using fun rp hrp => not_works_of_socket (hpre rp hrp)

theorem find?_append (hpre : ∀ rp ∈ pre, rp.socket = -1) :
    ((pre ++ rest).find? fun rp => rp.Works) = rest.find? fun rp => rp.Works := by
  rw [List.find?_append, List.find?_eq_none.mpr, Option.none_or]
  simpa using fun rp hrp => not_works_of_socket (hpre rp hrp)

variable (r : Request) (t : Session)

theorem fallsBack_of_forall (h : ∀ rp ∈ addresses, rp.socket = -1) :
    FallsBack r t addresses := by
  have hnot : ∀ rp ∈ addresses, ¬ rp.Works := fun rp hrp => not_works_of_socket (h rp hrp)
  have hfind : addresses.find? (fun rp => rp.Works) = none := by simpa using hnot
  constructor
  · rw [connectLoop_of_forall h, eq_comm, List.dropWhile_eq_nil_iff]
    simpa using hnot
  · rw [connectLoop_of_forall h, hfind]
    rfl
  · simp [sendMail, connectLoop_of_forall h]
  · simpa [sendMail, connectLoop_of_forall h] using hnot

/-- The first address with a socket decides. -/
theorem fallsBack_append (hpre : ∀ rp ∈ pre, rp.socket = -1) (hrp : rp.socket ≠ -1) :
    FallsBack r t (pre ++ rp :: rest) ↔ rp.connect = 0 := by
  have hloop := @connectLoop_append pre rest rp hpre hrp
  constructor
  · intro h
    have hchosen := h.chosen
    rw [hloop, dropWhile_append hpre] at hchosen
    by_contra hconnect
    have hnot : ¬ rp.Works := fun hworks => hconnect hworks.2
    rw [List.dropWhile_cons_of_pos (by simpa using hnot)] at hchosen
    -- then the addresses left would be fewer
    have hle := (List.dropWhile_sublist (l := rest) fun rp => decide ¬ rp.Works).length_le
    rw [← hchosen, List.length_cons] at hle
    omega
  · intro hconnect
    have hworks : rp.Works := ⟨hrp, hconnect⟩
    have hfind : (pre ++ rp :: rest).find? (fun rp => rp.Works) = some rp := by
      rw [find?_append hpre, List.find?_cons_of_pos (by simpa using hworks)]
    constructor
    · rw [hloop, dropWhile_append hpre, List.dropWhile_cons_of_neg (by simpa using hworks)]
    · rw [hloop, hfind]
      rfl
    · intro call hcall fd htalks
      refine ⟨rp, hfind, ?_⟩
      simp only [sendMail, hloop] at hcall
      rcases List.mem_append.mp hcall with hcall | hcall
      · rw [List.mem_singleton.mp hcall] at htalks
        cases htalks
      · exact converse_talks hcall htalks
    · refine iff_of_false ?_ ?_
      · simp only [sendMail, hloop]
        exact converse_throws
      · intro hnone
        exact hnone rp (by simp) hworks

/-- `send_mail` falls back to the next address exactly if it never has to: the first address
with a socket also connects. -/
theorem fallsBack_iff (addresses : List AddrInfo) : FallsBack r t addresses ↔
    ∀ rp, addresses.find? (fun rp => rp.socket ≠ -1) = some rp → rp.connect = 0 := by
  rcases exists_socket_or_forall addresses with ⟨pre, rp, rest, rfl, hpre, hrp⟩ | hnone
  · have hfind : (pre ++ rp :: rest).find? (fun rp => rp.socket ≠ -1) = some rp := by
      refine List.find?_eq_some_iff_append.mpr ⟨by simpa using hrp, pre, rest, rfl, ?_⟩
      simpa using hpre
    rw [fallsBack_append r t hpre hrp, hfind]
    simp
  · refine iff_of_true (fallsBack_of_forall r t hnone) ?_
    intro rp hfind
    have hsocket := List.find?_some hfind
    simp [hnone rp (List.mem_of_find?_eq_some hfind)] at hsocket

end Connecting

/-- An address that refuses the connection, before one that works. -/
def refusing : AddrInfo where
  socket := 5
  connect := -1
  connect_eq := .inr rfl

def working : AddrInfo where
  socket := 6
  connect := 0
  connect_eq := .inl rfl

def toRoot : Request where
  smtpserver := "localhost"
  smtpport := "25"
  addresses := {}
  subject := ""
  msg := ""

def silentServer : Session where
  hostname := "host"
  welcome := false
  answers := fun _ => { sends := fun _ => true, recv := none }

theorem not_fallsBack_refusing : ¬ FallsBack toRoot silentServer [refusing, working] := by
  have hfirst := @fallsBack_append [] [working] refusing toRoot silentServer
    (by simp) (by decide)
  rw [List.nil_append] at hfirst
  rw [hfirst]
  decide

end Ctguard.SendMail
