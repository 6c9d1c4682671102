import CodeSlices.Adb.Framing
import CodeSlices.Lib.Except

/-!
# Queries

`query` of `lisp/adb.rkt` and what it calls. The server is what it sends before it closes the
connection, or nothing where it refuses it; any write or read may fail on the network besides.
`string->number` is a parameter here: it gives the number of a text in base 16 if that is a natural
number. A callback may use the ports and the object, and may not come to an end.
-/

namespace CodeSlices.Adb

/-- The ports of a connection, what was sent on it, the flag of the object, whether the callback was
run and the messages that were displayed. -/
structure Session where
  cIn : List UInt8
  sent : List UInt8 := []
  unflushed : List UInt8 := []
  inClosed : Bool := false
  outClosed : Bool := false
  connected : Bool := true
  called : Bool := false
  displayed : List (List Char) := []

inductive Round
  | transport
  | command
  deriving DecidableEq

/-- The operations of a query on its ports. -/
inductive Op
  | send (round : Round)
  | status (round : Round)
  | length (round : Round)
  | message (round : Round)
  | close
  deriving DecidableEq

/-- The operations that fail on the network, with the number of bytes that pass before. -/
abbrev Network := Op → Option Nat

/-- An error of contract, or `exn:fail:network` with what it leaves. -/
inductive Fault
  | contract
  | network (s : Session)

/-- Runs that may raise an error, or go on for ever. -/
abbrev Run := ExceptT Fault Option

def ofExcept {α : Type} (x : Except Fault α) : Run α := some x

def Run.Returns {α : Type} (run : Run α) (a : α) : Prop := run = some (.ok a)

def Run.Raises {α : Type} (run : Run α) (e : Fault) : Prop := run = some (.error e)

/-- It may write, close the ports and change the flag by queries of its own. -/
abbrev Callback := Session → Run Session

variable (toNumber : List Char → Option Nat) (net : Network)

/-- `read-string` on the port; no character is read without the network. -/
def readPort (op : Op) (n : Nat) (s : Session) : Except Fault (Option (List Char) × Session) :=
  match if n = 0 then none else net op with
  | some k => .error (.network { s with cIn := s.cIn.drop k })
  | none => .ok ((readString n s.cIn).1, { s with cIn := (readString n s.cIn).2 })

/-- `read-payload` with any `string->number`. -/
def readPayloadWith (round : Round) (s : Session) :
    Except Fault (Nat × Option (List Char) × Session) := do
  let (hexstr, s) ← readPort net (.length round) 4 s
  match hexstr.bind toNumber with
  | none => .error .contract
  | some len =>
      let (pld, s) ← readPort net (.message round) len s
      .ok (len, pld, s)

/-- Nothing fails. -/
def quiet : Network := fun _ => none

/-- Where nothing fails it is the `read-payload` of the framing. -/
theorem readPayloadWith_quiet (round : Round) (s : Session) :
    readPayloadWith stringToNumber quiet round s =
      match readPayload s.cIn with
      | .ok (len, pld, fd) => .ok (len, pld, { s with cIn := fd })
      | .error _ => .error .contract := by
  have hport : ∀ op n s, readPort quiet op n s =
      .ok ((readString n s.cIn).1, { s with cIn := (readString n s.cIn).2 }) := by
    intro op n s
    rw [readPort, quiet, ite_self]
  rw [readPayloadWith, readPayload, hport, ok_bind]
  rcases readString 4 s.cIn with ⟨hexstr, fd⟩
  cases hexstr with
  | none => rfl
  | some hexstr =>
      simp only [Option.bind_some]
      cases stringToNumber hexstr with
      | none => rfl
      | some len =>
          simp only [hport]
          rfl

def okay : List Char := ['O', 'K', 'A', 'Y']

def fail : List Char := ['F', 'A', 'I', 'L']

/-- The text may be eof, which is not a string. -/
def stringAppend (text : List Char) : Option (List Char) → Except Fault (List Char)
  | some msg => .ok (text ++ msg)
  | none => .error .contract

/-- The branch of `FAIL` in `read-status`. -/
def protocolError (round : Round) (s : Session) : Except Fault (Bool × List Char × Session) := do
  let (_, msg, s) ← readPayloadWith toNumber net round s
  let text ← stringAppend "Protocol error: ".toList msg
  .ok (false, text, { s with connected := false })

/-- The last branch of `read-status`. -/
def unknownStatus (status : Option (List Char)) (s : Session) :
    Except Fault (Bool × List Char × Session) := do
  let text ← stringAppend "Unknown status: ".toList status
  .ok (false, text, { s with connected := false })

def readStatus (round : Round) (s : Session) : Except Fault (Bool × List Char × Session) := do
  let (status, s) ← readPort net (.status round) 4 s
  if status = some okay then .ok (true, [], s)
  else if status = some fail then protocolError toNumber net round s
  else unknownStatus status s

/-- `sendquery` on the port of a connection. -/
def send (round : Round) (cmd : List Char) (s : Session) : Except Fault Session :=
  match sendquery cmd with
  | .error _ => .error .contract
  | .ok bytes =>
      match net (.send round) with
      | some k => .error (.network { s with sent := s.sent ++ bytes.take k })
      | none => .ok { s with sent := s.sent ++ bytes }

def switchSocketTransport (s : Session) : Except Fault (Bool × List Char × Session) := do
  let s ← send net .transport "host:transport-any".toList s
  readStatus toNumber net .transport s

/-- The commands of local services, before which the transport is switched. -/
def switches (cmd : List Char) : Bool := 4 ≤ cmd.length && cmd.take 4 != "host".toList

def runCallback (func : Callback) (s : Session) : Run Session := do
  let s ← func s
  pure { s with called := true }

/-- The switch of the transport before the command of a local service; what comes of it is not
looked at. -/
def switchFirst (cmd : List Char) (s : Session) : Except Fault Session :=
  if switches cmd then do
    let (_, _, s) ← switchSocketTransport toNumber net s
    .ok s
  else .ok s

/-- The port for output is flushed before it is closed, unless the callback has closed it. -/
def closePorts (persistCon : Bool) (s : Session) : Except Fault Session :=
  if persistCon then .ok s
  else
    match if s.outClosed ∨ s.unflushed = [] then none else net .close with
    | some k => .error (.network
        { s with sent := s.sent ++ s.unflushed.take k, inClosed := true })
    | none => .ok
        { s with sent := s.sent ++ s.unflushed, unflushed := [], inClosed := true,
                 outClosed := true }

/-- The end of `query`, from the status of the command on. -/
def finish (func : Callback) (persistCon status : Bool) (msg : List Char) (s : Session) :
    Run Session := do
  let s ← if status then runCallback func s
    else pure { s with displayed := s.displayed ++ [msg] }
  ofExcept (closePorts net persistCon s)

/-- `query` on an accepted connection. -/
def request (cmd : List Char) (func : Callback) (persistCon : Bool) (s : Session) :
    Run Session := do
  let s ← ofExcept (switchFirst toNumber net cmd s)
  let s ← ofExcept (send net .command cmd s)
  let (status, msg, s) ← ofExcept (readStatus toNumber net .command s)
  finish net func persistCon status msg s

def connectError (s : Session) : Session :=
  { s with connected := false,
           displayed := s.displayed ++ ["Failed to connect adb server".toList] }

/-- `with-handlers`, for `exn:fail:network?` only. -/
def withHandlers : Run Session → Run Session
  | some (.error (.network s)) => pure (connectError s)
  | run => run

/-- `query`, which returns the flag `connected`; a refused connection has no ports. -/
def query (server : Option (List UInt8)) (cmd : List Char) (func : Callback)
    (persistCon : Bool) : Run Session :=
  match server with
  | none => pure (connectError { cIn := [], inClosed := true, outClosed := true })
  | some bytes => withHandlers (request toNumber net cmd func persistCon { cIn := bytes })

def hostService (server : Option (List UInt8)) (name : List Char) (callback : Callback) :
    Run Session :=
  query toNumber net server ("host:".toList ++ name) callback false

def localService (server : Option (List UInt8)) (name argv : List Char) (callback : Callback)
    (persistCon : Bool) : Run Session :=
  query toNumber net server (name ++ ':' :: argv) callback persistCon

/-! ### What the server answers -/

/-- The next status is `OKAY`. -/
def Accepts (fd : List UInt8) : Prop := (readString 4 fd).1 = some okay

/-- The next status is `FAIL`. -/
def Refuses (fd : List UInt8) : Prop := (readString 4 fd).1 = some fail

instance (fd : List UInt8) : Decidable (Accepts fd) := inferInstanceAs (Decidable (_ = _))

instance (fd : List UInt8) : Decidable (Refuses fd) := inferInstanceAs (Decidable (_ = _))

/-- The length that the next four characters give. -/
def payloadLength (fd : List UInt8) : Option Nat := (readString 4 fd).1.bind toNumber

/-- A length and, unless it is 0, something of a text after it. -/
def HasPayload (fd : List UInt8) : Prop :=
  ∃ len, payloadLength toNumber fd = some len ∧ (len = 0 ∨ (readString 4 fd).2 ≠ [])

/-- Something of a status is there, and after `FAIL` its message. -/
def HasStatus (fd : List UInt8) : Prop :=
  fd ≠ [] ∧ (Refuses fd → HasPayload toNumber (readString 4 fd).2)

def afterPayload (fd : List UInt8) : List UInt8 :=
  match payloadLength toNumber fd with
  | some len => (readString len (readString 4 fd).2).2
  | none => []

def afterStatus (fd : List UInt8) : List UInt8 :=
  if Refuses fd then afterPayload toNumber (readString 4 fd).2 else (readString 4 fd).2

/-- The network fails while a message is read. -/
def MessageFails (round : Round) (fd : List UInt8) : Prop :=
  net (.length round) ≠ none ∨
    ∃ len, payloadLength toNumber fd = some len ∧ len ≠ 0 ∧ net (.message round) ≠ none

/-- The network fails while a status is read, with the message after `FAIL`. -/
def StatusFails (round : Round) (fd : List UInt8) : Prop :=
  net (.status round) ≠ none ∨
    Refuses fd ∧ MessageFails toNumber net round (readString 4 fd).2

/-- The network fails while a command is sent and answered. -/
def RoundFails (round : Round) (fd : List UInt8) : Prop :=
  net (.send round) ≠ none ∨ StatusFails toNumber net round fd

/-- The stream that the status of the command itself is read from. -/
def commandStream (bytes : List UInt8) (cmd : List Char) : List UInt8 :=
  if switches cmd then afterStatus toNumber bytes else bytes

/-- The request is accepted, and so is the switch of the transport where there is one. -/
def Granted (bytes : List UInt8) (cmd : List Char) : Prop :=
  if switches cmd then Accepts bytes ∧ Accepts (readString 4 bytes).2 else Accepts bytes

/-- The call returns, and what it returns is whether the request was granted and the callback run;
the ports are closed unless they are to be kept. -/
def Answers (bytes : List UInt8) (cmd : List Char) (func : Callback) (persistCon : Bool) : Prop :=
  ∃ s, (query toNumber net (some bytes) cmd func persistCon).Returns s ∧
    (s.connected = true ↔ Granted bytes cmd ∧ s.called = true) ∧
    (persistCon = false → s.inClosed = true ∧ s.outClosed = true)

def frameOf (cmd : List Char) : List UInt8 := (sendquery cmd).toOption.getD []

/-- The session after the switch, where one is sent. -/
def switched (bytes : List UInt8) (cmd : List Char) : Session where
  cIn := commandStream toNumber bytes cmd
  sent := if switches cmd then frameOf "host:transport-any".toList else []
  connected := decide (switches cmd → Accepts bytes)

/-- The session after the status of the command. -/
def answered (bytes : List UInt8) (cmd : List Char) : Session where
  cIn := afterStatus toNumber (commandStream toNumber bytes cmd)
  sent := (switched toNumber bytes cmd).sent ++ frameOf cmd
  connected := decide (switches cmd → Accepts bytes) &&
    decide (Accepts (commandStream toNumber bytes cmd))

/-- The callback leaves the flag as it finds it, and what it has not flushed can be flushed where
the ports are closed. -/
def CallbackFits (func : Callback) (persistCon : Bool) (s : Session) : Prop :=
  ∀ s', (func s).Returns s' → s'.connected = s.connected ∧
    (persistCon = false → ¬ s'.outClosed → s'.unflushed ≠ [] → net .close = none)

/-- Where the network fails in a round the ports are to be kept, and else a status is there. -/
def RoundAnswers (round : Round) (fd : List UInt8) (persistCon : Bool) (next : Prop) : Prop :=
  RoundFails toNumber net round fd ∧ persistCon = true ∨
    ¬ RoundFails toNumber net round fd ∧ HasStatus toNumber fd ∧ next

/-- The length of the command has four digits, and its round is answered. -/
def CommandAnswers (bytes : List UInt8) (cmd : List Char) (func : Callback) (persistCon : Bool) :
    Prop :=
  cmd.length < 65536 ∧
    RoundAnswers toNumber net .command (commandStream toNumber bytes cmd) persistCon
      (Accepts (commandStream toNumber bytes cmd) →
        CallbackFits net func persistCon (answered toNumber bytes cmd))

def Answerable (bytes : List UInt8) (cmd : List Char) (func : Callback) (persistCon : Bool) :
    Prop :=
  if switches cmd then
    RoundAnswers toNumber net .transport bytes persistCon
      (CommandAnswers toNumber net bytes cmd func persistCon)
  else CommandAnswers toNumber net bytes cmd func persistCon

variable {toNumber} {net} {fd bytes : List UInt8} {cmd : List Char} {func : Callback}
  {persistCon : Bool} {s : Session} {round : Round} {op : Op}

/-! ### One status -/

/-- An error of the network, with the callback not run and the ports not closed in between. -/
def Drops {α : Type} (x : Except Fault α) (s : Session) : Prop :=
  ∃ s', x = .error (.network s') ∧ s'.called = s.called ∧ s'.inClosed = s.inClosed

theorem Drops.bind {α β : Type} {x : Except Fault α} (h : Drops x s)
    (next : α → Except Fault β) : Drops (x >>= next) s := by
  obtain ⟨s', rfl, hkept⟩ := h
  exact ⟨s', rfl, hkept⟩

theorem readString_eq_none_iff {n : Nat} : (readString n fd).1 = none ↔ n ≠ 0 ∧ fd = [] := by
  rw [readString]
  split_ifs with hn hfd
  · exact iff_of_false not_false fun h => h.1 hn
  · exact iff_of_true rfl ⟨hn, hfd⟩
  · exact iff_of_false not_false fun h => hfd h.2

theorem exists_readString {n : Nat} (h : n = 0 ∨ fd ≠ []) :
    ∃ text, (readString n fd).1 = some text := by
  refine Option.ne_none_iff_exists'.mp fun hnone => ?_
  obtain ⟨hn, hfd⟩ := readString_eq_none_iff.mp hnone
  exact h.elim hn fun hne => hne hfd

theorem readPort_ok {n : Nat} (h : n = 0 ∨ net op = none) : readPort net op n s =
    .ok ((readString n s.cIn).1, { s with cIn := (readString n s.cIn).2 }) := by
  have hnone : (if n = 0 then none else net op) = none := by
    split
    · rfl
    · exact h.resolve_left ‹_›
  rw [readPort, hnone]

theorem readPort_drops {n : Nat} (hn : n ≠ 0) (h : net op ≠ none) :
    Drops (readPort net op n s) s := by
  obtain ⟨k, hk⟩ := Option.ne_none_iff_exists'.mp h
  refine ⟨{ s with cIn := s.cIn.drop k }, ?_, rfl, rfl⟩
  rw [readPort, if_neg hn, hk]

theorem protocolError_drops (h : MessageFails toNumber net round s.cIn) :
    Drops (protocolError toNumber net round s) s := by
  refine Drops.bind ?_ _
  by_cases hlength : net (.length round) = none
  · obtain ⟨len, hlen, hpos, hmessage⟩ := h.resolve_left (not_not.mpr hlength)
    obtain ⟨s', hread, hkept⟩ := readPort_drops
      (s := { s with cIn := (readString 4 s.cIn).2 }) hpos hmessage
    refine ⟨s', ?_, hkept⟩
    rw [readPayloadWith, readPort_ok (.inr hlength), ok_bind]
    rw [payloadLength] at hlen
    simp only [hlen, hread]
    rfl
  · exact (readPort_drops (by decide) hlength).bind _

theorem protocolError_ok (hnet : ¬ MessageFails toNumber net round s.cIn)
    (hpayload : HasPayload toNumber s.cIn) :
    ∃ msg, protocolError toNumber net round s = .ok (false, msg,
      { s with cIn := afterPayload toNumber s.cIn, connected := false }) := by
  obtain ⟨hlength, hmessage⟩ := not_or.mp hnet
  obtain ⟨len, hlen, htext⟩ := hpayload
  obtain ⟨msg, hmsg⟩ := exists_readString htext
  have hport : len = 0 ∨ net (.message round) = none := by
    by_contra h
    obtain ⟨hpos, hfails⟩ := not_or.mp h
    exact hmessage ⟨len, hlen, hpos, hfails⟩
  refine ⟨"Protocol error: ".toList ++ msg, ?_⟩
  rw [protocolError, readPayloadWith, readPort_ok (.inr (not_not.mp hlength)), ok_bind,
    afterPayload, hlen]
  rw [payloadLength] at hlen
  simp only [hlen, readPort_ok hport, ok_bind, hmsg]
  rfl

theorem protocolError_error (hnet : ¬ MessageFails toNumber net round s.cIn)
    (hpayload : ¬ HasPayload toNumber s.cIn) :
    protocolError toNumber net round s = .error .contract := by
  obtain ⟨hlength, hmessage⟩ := not_or.mp hnet
  rw [protocolError, readPayloadWith, readPort_ok (.inr (not_not.mp hlength)), ok_bind]
  cases hlen : payloadLength toNumber s.cIn with
  | none =>
      rw [payloadLength] at hlen
      simp only [hlen]
      rfl
  | some len =>
      have htext : ¬ (len = 0 ∨ (readString 4 s.cIn).2 ≠ []) := fun htext =>
        hpayload ⟨len, hlen, htext⟩
      obtain ⟨hpos, hnil⟩ := not_or.mp htext
      have hmsg : (readString len (readString 4 s.cIn).2).1 = none :=
        readString_eq_none_iff.mpr ⟨hpos, not_not.mp hnil⟩
      have hport : len = 0 ∨ net (.message round) = none :=
        .inr (by_contra fun hfails => hmessage ⟨len, hlen, hpos, hfails⟩)
      rw [payloadLength] at hlen
      simp only [hlen, readPort_ok hport, ok_bind, hmsg]
      rfl

theorem readStatus_eq (h : net (.status round) = none) : readStatus toNumber net round s =
    if Accepts s.cIn then .ok (true, [], { s with cIn := (readString 4 s.cIn).2 })
    else if Refuses s.cIn then
      protocolError toNumber net round { s with cIn := (readString 4 s.cIn).2 }
    else unknownStatus (readString 4 s.cIn).1 { s with cIn := (readString 4 s.cIn).2 } := by
  rw [readStatus, readPort_ok (.inr h)]
  rfl

theorem not_refuses_of_accepts (haccepts : Accepts fd) : ¬ Refuses fd := fun hrefuses => by
  cases haccepts.symm.trans hrefuses

theorem readStatus_drops (h : StatusFails toNumber net round s.cIn) :
    Drops (readStatus toNumber net round s) s := by
  by_cases hstatus : net (.status round) = none
  · obtain ⟨hrefuses, hmessage⟩ := h.resolve_left (not_not.mpr hstatus)
    rw [readStatus_eq hstatus, if_neg fun haccepts => not_refuses_of_accepts haccepts hrefuses,
      if_pos hrefuses]
    exact protocolError_drops (s := { s with cIn := (readString 4 s.cIn).2 }) hmessage
  · exact (readPort_drops (by decide) hstatus).bind _

theorem readStatus_ok (hnet : ¬ StatusFails toNumber net round s.cIn)
    (hstatus : HasStatus toNumber s.cIn) :
    ∃ msg, readStatus toNumber net round s = .ok (decide (Accepts s.cIn), msg,
      { s with cIn := afterStatus toNumber s.cIn,
               connected := s.connected && decide (Accepts s.cIn) }) := by
  obtain ⟨hport, hmessage⟩ := not_or.mp hnet
  obtain ⟨hne, hpayload⟩ := hstatus
  obtain ⟨status, hread⟩ := exists_readString (n := 4) (Or.inr hne)
  rw [readStatus_eq (not_not.mp hport), afterStatus]
  by_cases haccepts : Accepts s.cIn
  · refine ⟨[], ?_⟩
    rw [if_pos haccepts, if_neg (not_refuses_of_accepts haccepts), decide_eq_true haccepts,
      Bool.and_true]
  · rw [decide_eq_false haccepts, Bool.and_false, if_neg haccepts]
    by_cases hrefuses : Refuses s.cIn
    · obtain ⟨msg, hok⟩ := protocolError_ok (s := { s with cIn := (readString 4 s.cIn).2 })
        (fun hfails => hmessage ⟨hrefuses, hfails⟩) (hpayload hrefuses)
      refine ⟨msg, ?_⟩
      rw [if_pos hrefuses, if_pos hrefuses, hok]
    · refine ⟨"Unknown status: ".toList ++ status, ?_⟩
      rw [if_neg hrefuses, if_neg hrefuses, hread]
      rfl

theorem readStatus_error (hnet : ¬ StatusFails toNumber net round s.cIn)
    (hstatus : ¬ HasStatus toNumber s.cIn) :
    readStatus toNumber net round s = .error .contract := by
  obtain ⟨hport, hmessage⟩ := not_or.mp hnet
  rw [readStatus_eq (not_not.mp hport)]
  by_cases hnil : s.cIn = []
  · rw [hnil]
    rfl
  · obtain ⟨hrefuses, hpayload⟩ : Refuses s.cIn ∧ ¬ HasPayload toNumber (readString 4 s.cIn).2 := by
      by_contra h
      exact hstatus ⟨hnil, fun hrefuses => by_contra fun hpayload => h ⟨hrefuses, hpayload⟩⟩
    rw [if_neg fun haccepts => not_refuses_of_accepts haccepts hrefuses, if_pos hrefuses]
    exact protocolError_error (s := { s with cIn := (readString 4 s.cIn).2 })
      (fun hfails => hmessage ⟨hrefuses, hfails⟩) hpayload

/-! ### One round -/

theorem sendquery_eq (hcmd : cmd.length < 65536) : sendquery cmd = .ok (frameOf cmd) := by
  obtain ⟨digits, -, hhex, -⟩ := numberToHexstring_eq hcmd
  rw [frameOf, sendquery, hhex]
  rfl

theorem send_ok (hcmd : cmd.length < 65536) (hnet : net (.send round) = none) :
    send net round cmd s = .ok { s with sent := s.sent ++ frameOf cmd } := by
  rw [send, sendquery_eq hcmd]
  simp only [hnet]

theorem send_drops (hcmd : cmd.length < 65536) (hnet : net (.send round) ≠ none) :
    Drops (send net round cmd s) s := by
  obtain ⟨k, hk⟩ := Option.ne_none_iff_exists'.mp hnet
  refine ⟨{ s with sent := s.sent ++ (frameOf cmd).take k }, ?_, rfl, rfl⟩
  rw [send, sendquery_eq hcmd]
  simp only [hk]

theorem send_error (hcmd : ¬ cmd.length < 65536) : send net round cmd s = .error .contract := by
  have hlength : ¬ (Nat.toDigits 16 cmd.length).length ≤ 4 := by
    rw [Nat.length_toDigits_le_iff (by decide) (by decide)]
    exact hcmd
  rw [send, sendquery, numberToHexstring, if_neg hlength]
  rfl

theorem round_drops (hcmd : cmd.length < 65536) (hnet : RoundFails toNumber net round s.cIn) :
    Drops (send net round cmd s >>= readStatus toNumber net round) s := by
  by_cases hsend : net (.send round) = none
  · rw [send_ok hcmd hsend, ok_bind]
    exact readStatus_drops (s := { s with sent := s.sent ++ frameOf cmd })
      (hnet.resolve_left (not_not.mpr hsend))
  · exact (send_drops hcmd hsend).bind _

theorem round_ok (hcmd : cmd.length < 65536) (hnet : ¬ RoundFails toNumber net round s.cIn)
    (hstatus : HasStatus toNumber s.cIn) :
    ∃ msg, send net round cmd s >>= readStatus toNumber net round =
      .ok (decide (Accepts s.cIn), msg,
        { s with cIn := afterStatus toNumber s.cIn,
                 sent := s.sent ++ frameOf cmd,
                 connected := s.connected && decide (Accepts s.cIn) }) := by
  obtain ⟨hsend, hread⟩ := not_or.mp hnet
  rw [send_ok hcmd (not_not.mp hsend), ok_bind]
  exact readStatus_ok (s := { s with sent := s.sent ++ frameOf cmd }) hread hstatus

theorem round_error (hcmd : cmd.length < 65536) (hnet : ¬ RoundFails toNumber net round s.cIn)
    (hstatus : ¬ HasStatus toNumber s.cIn) :
    send net round cmd s >>= readStatus toNumber net round = .error .contract := by
  obtain ⟨hsend, hread⟩ := not_or.mp hnet
  rw [send_ok hcmd (not_not.mp hsend), ok_bind]
  exact readStatus_error (s := { s with sent := s.sent ++ frameOf cmd }) hread hstatus

/-! ### One query -/

theorem ofExcept_ok_bind {α β : Type} (a : α) (next : α → Run β) :
    ofExcept (.ok a) >>= next = next a := rfl

theorem request_eq : request toNumber net cmd func persistCon s =
    ofExcept (switchFirst toNumber net cmd s) >>= fun s =>
      ofExcept (send net .command cmd s >>= readStatus toNumber net .command) >>= fun answer =>
        finish net func persistCon answer.1 answer.2.1 answer.2.2 := by
  rw [request]
  refine congrArg (_ >>= ·) (funext fun s => ?_)
  cases send net .command cmd s with
  | error e => rfl
  | ok s => rfl

theorem granted_iff : Granted bytes cmd ↔
    (switches cmd → Accepts bytes) ∧ Accepts (commandStream toNumber bytes cmd) := by
  rw [Granted, commandStream]
  by_cases hswitch : switches cmd
  · rw [if_pos hswitch, if_pos hswitch]
    refine ⟨fun h => ⟨fun _ => h.1, ?_⟩, fun h => ⟨h.1 hswitch, ?_⟩⟩
    · rw [afterStatus, if_neg (not_refuses_of_accepts h.1)]
      exact h.2
    · have hnext := h.2
      rwa [afterStatus, if_neg (not_refuses_of_accepts (h.1 hswitch))] at hnext
  · rw [if_neg hswitch, if_neg hswitch]
    exact (and_iff_right fun h => absurd h hswitch).symm

/-- The request failed on the network before the callback was run. -/
theorem answers_iff_of_drops (s' : Session)
    (hrun : request toNumber net cmd func persistCon { cIn := bytes } =
      ofExcept (.error (.network s'))) (hcalled : s'.called = false)
    (hclosed : s'.inClosed = false) :
    Answers toNumber net bytes cmd func persistCon ↔ persistCon = true := by
  have hquery : query toNumber net (some bytes) cmd func persistCon = pure (connectError s') := by
    rw [query, hrun]
    rfl
  constructor
  · rintro ⟨s, hreturns, -, hports⟩
    rw [hquery] at hreturns
    cases hreturns
    by_contra hpersist
    have hopen := (hports (Bool.eq_false_iff.mpr hpersist)).1
    exact Bool.false_ne_true (hclosed.symm.trans hopen)
  · intro hpersist
    refine ⟨connectError s', hquery, ?_, fun h => ?_⟩
    · refine iff_of_false Bool.false_ne_true fun h => ?_
      exact Bool.false_ne_true (hcalled.symm.trans h.2)
    · exact absurd (h.symm.trans hpersist) Bool.false_ne_true

theorem not_answers_of_error
    (hrun : request toNumber net cmd func persistCon { cIn := bytes } =
      ofExcept (.error .contract)) :
    ¬ Answers toNumber net bytes cmd func persistCon := by
  rintro ⟨s, hreturns, -⟩
  rw [query, hrun] at hreturns
  cases hreturns

theorem closePorts_ok (h : persistCon = false → ¬ s.outClosed → s.unflushed ≠ [] →
      net .close = none) :
    ∃ s', closePorts net persistCon s = .ok s' ∧ s'.connected = s.connected ∧
      s'.called = s.called ∧ (persistCon = false → s'.inClosed = true ∧ s'.outClosed = true) := by
  cases persistCon with
  | true => exact ⟨s, rfl, rfl, rfl, fun h => absurd h.symm Bool.false_ne_true⟩
  | false =>
      have hnone : (if s.outClosed ∨ s.unflushed = [] then none else net .close) = none := by
        split
        · rfl
        · rename_i hopen
          exact h rfl (not_or.mp hopen).1 (not_or.mp hopen).2
      refine ⟨{ s with sent := s.sent ++ s.unflushed, unflushed := [], inClosed := true,
                       outClosed := true }, ?_, rfl, rfl, fun _ => ⟨rfl, rfl⟩⟩
      rw [closePorts, if_neg Bool.false_ne_true, hnone]

theorem closePorts_error (hpersist : persistCon = false) (hopen : ¬ s.outClosed)
    (hunflushed : s.unflushed ≠ []) (hnet : net .close ≠ none) :
    ∃ s', closePorts net persistCon s = .error (.network s') ∧ s'.outClosed = false := by
  obtain ⟨k, hk⟩ := Option.ne_none_iff_exists'.mp hnet
  refine ⟨{ s with sent := s.sent ++ s.unflushed.take k, inClosed := true }, ?_,
    Bool.eq_false_iff.mpr hopen⟩
  rw [closePorts, hpersist, if_neg Bool.false_ne_true, if_neg (not_or.mpr ⟨hopen, hunflushed⟩), hk]

/-- What the query returns when the callback has been run and came back. -/
theorem answers_iff_of_callback {s₁ : Session}
    (hrun : request toNumber net cmd func persistCon { cIn := bytes } =
      ofExcept (closePorts net persistCon { s₁ with called := true })) :
    Answers toNumber net bytes cmd func persistCon ↔
      (s₁.connected = true ↔ Granted bytes cmd) ∧
        (persistCon = false → ¬ s₁.outClosed → s₁.unflushed ≠ [] → net .close = none) := by
  by_cases hclose : persistCon = false → ¬ s₁.outClosed → s₁.unflushed ≠ [] → net .close = none
  · obtain ⟨s', hok, hconnected, hcalled, hports⟩ :=
      closePorts_ok (s := { s₁ with called := true }) hclose
    have hquery : query toNumber net (some bytes) cmd func persistCon = pure s' := by
      rw [query, hrun, hok]
      rfl
    rw [and_iff_left hclose]
    constructor
    · rintro ⟨s, hreturns, hflag, -⟩
      rw [hquery] at hreturns
      cases hreturns
      rw [hconnected, hcalled] at hflag
      exact hflag.trans (and_iff_left rfl)
    · intro hflag
      refine ⟨s', hquery, ?_, hports⟩
      rw [hconnected, hcalled]
      exact hflag.trans (and_iff_left rfl).symm
  · refine iff_of_false ?_ fun h => hclose h.2
    simp only [Classical.not_imp] at hclose
    obtain ⟨hpersist, hopen, hunflushed, hnet⟩ := hclose
    obtain ⟨s', herror, hstill⟩ :=
      closePorts_error (s := { s₁ with called := true }) hpersist hopen hunflushed hnet
    rintro ⟨s, hreturns, -, hports⟩
    rw [query, hrun, herror] at hreturns
    cases hreturns
    exact Bool.false_ne_true (hstill.symm.trans (hports hpersist).2)

theorem answers_iff_of_finish (hfunc : ∀ s, ∃ s', (func s).Returns s') (msg : List Char)
    (hrun : request toNumber net cmd func persistCon { cIn := bytes } =
      finish net func persistCon (decide (Accepts (commandStream toNumber bytes cmd))) msg
        (answered toNumber bytes cmd)) :
    Answers toNumber net bytes cmd func persistCon ↔
      (Accepts (commandStream toNumber bytes cmd) →
        CallbackFits net func persistCon (answered toNumber bytes cmd)) := by
  by_cases haccepts : Accepts (commandStream toNumber bytes cmd)
  · obtain ⟨s₁, hreturns⟩ := hfunc (answered toNumber bytes cmd)
    rw [decide_eq_true haccepts, finish, if_pos rfl, runCallback, hreturns] at hrun
    rw [answers_iff_of_callback hrun, imp_iff_right haccepts]
    have hflag : (answered toNumber bytes cmd).connected = true ↔ Granted bytes cmd := by
      rw [@granted_iff toNumber, answered, Bool.and_eq_true, decide_eq_true_eq, decide_eq_true_eq]
    constructor
    · rintro ⟨hconnected, hclose⟩ s' hreturns'
      cases hreturns.symm.trans hreturns'
      exact ⟨Bool.eq_iff_iff.mpr (hconnected.trans hflag.symm), hclose⟩
    · intro hfits
      obtain ⟨hconnected, hclose⟩ := hfits s₁ hreturns
      exact ⟨hconnected ▸ hflag, hclose⟩
  · refine iff_of_true ?_ fun h => absurd h haccepts
    obtain ⟨s', hok, hconnected, hcalled, hports⟩ := @closePorts_ok net persistCon
      { answered toNumber bytes cmd with displayed := [] ++ [msg] }
      fun _ _ hunflushed => absurd rfl hunflushed
    refine ⟨s', ?_, ?_, hports⟩
    · rw [query, hrun, decide_eq_false haccepts, finish, if_neg Bool.false_ne_true]
      exact congrArg (fun x => withHandlers (ofExcept x)) hok
    · rw [hconnected, hcalled]
      refine iff_of_false ?_ fun h => Bool.false_ne_true h.2
      rw [answered, decide_eq_false haccepts, Bool.and_false]
      exact Bool.false_ne_true

/-- The round of the command, on the session after the switch. -/
theorem answers_iff_command (hfunc : ∀ s, ∃ s', (func s).Returns s')
    (hrun : switchFirst toNumber net cmd { cIn := bytes } =
      .ok (switched toNumber bytes cmd)) :
    Answers toNumber net bytes cmd func persistCon ↔
      CommandAnswers toNumber net bytes cmd func persistCon := by
  have hrequest := @request_eq toNumber net cmd func persistCon { cIn := bytes }
  rw [hrun, ofExcept_ok_bind] at hrequest
  rw [CommandAnswers, RoundAnswers]
  by_cases hcmd : cmd.length < 65536
  · rw [and_iff_right hcmd]
    by_cases hnet : RoundFails toNumber net .command (commandStream toNumber bytes cmd)
    · obtain ⟨s', herror, hcalled, hclosed⟩ :=
        round_drops (s := switched toNumber bytes cmd) hcmd hnet
      rw [herror] at hrequest
      rw [answers_iff_of_drops s' hrequest hcalled hclosed, or_iff_left fun h => h.1 hnet,
        and_iff_right hnet]
    · rw [or_iff_right fun h => hnet h.1, and_iff_right hnet]
      by_cases hstatus : HasStatus toNumber (commandStream toNumber bytes cmd)
      · obtain ⟨msg, hok⟩ := round_ok (s := switched toNumber bytes cmd) hcmd hnet hstatus
        rw [hok] at hrequest
        rw [answers_iff_of_finish hfunc msg hrequest, and_iff_right hstatus]
      · rw [round_error (s := switched toNumber bytes cmd) hcmd hnet hstatus] at hrequest
        exact iff_of_false (not_answers_of_error hrequest) fun h => hstatus h.1
  · rw [send_error hcmd] at hrequest
    exact iff_of_false (not_answers_of_error hrequest) fun h => hcmd h.1

theorem switchFirst_eq (hswitch : switches cmd) : switchFirst toNumber net cmd s =
    (send net .transport "host:transport-any".toList s >>=
      readStatus toNumber net .transport) >>= fun answer => .ok answer.2.2 := by
  rw [switchFirst, if_pos hswitch]
  rfl

/-- With a callback that does not fail the query answers as it should exactly when the length of the
command has four digits, the stream has a status, with its message, for each one that is read, the
callback leaves the flag alone and nothing that matters fails on the network. -/
theorem answers_iff (toNumber : List Char → Option Nat) (net : Network) (bytes : List UInt8)
    (cmd : List Char) (func : Callback) (persistCon : Bool)
    (hfunc : ∀ s, ∃ s', (func s).Returns s') :
    Answers toNumber net bytes cmd func persistCon ↔
      Answerable toNumber net bytes cmd func persistCon := by
  rw [Answerable]
  by_cases hswitch : switches cmd
  · have hlength : "host:transport-any".toList.length < 65536 := by decide
    have hrequest := @request_eq toNumber net cmd func persistCon { cIn := bytes }
    rw [switchFirst_eq hswitch] at hrequest
    rw [if_pos hswitch, RoundAnswers]
    by_cases hnet : RoundFails toNumber net .transport bytes
    · obtain ⟨s', herror, hcalled, hclosed⟩ := round_drops (s := { cIn := bytes }) hlength hnet
      rw [herror] at hrequest
      rw [answers_iff_of_drops s' hrequest hcalled hclosed, or_iff_left fun h => h.1 hnet,
        and_iff_right hnet]
    · rw [or_iff_right fun h => hnet h.1, and_iff_right hnet]
      by_cases hstatus : HasStatus toNumber bytes
      · obtain ⟨msg, hok⟩ := round_ok (s := { cIn := bytes }) hlength hnet hstatus
        rw [and_iff_right hstatus]
        refine answers_iff_command hfunc ?_
        rw [switchFirst_eq hswitch, hok, ok_bind, switched, commandStream, if_pos hswitch,
          if_pos hswitch]
        simp [hswitch]
      · rw [round_error (s := { cIn := bytes }) hlength hnet hstatus] at hrequest
        exact iff_of_false (not_answers_of_error hrequest) fun h => hstatus h.1
  · rw [if_neg hswitch]
    refine answers_iff_command hfunc ?_
    rw [switchFirst, if_neg hswitch, switched, commandStream, if_neg hswitch, if_neg hswitch]
    simp [hswitch]

theorem not_roundFails_quiet (toNumber : List Char → Option Nat) (round : Round)
    (fd : List UInt8) : ¬ RoundFails toNumber quiet round fd := by
  rintro (h | h | ⟨-, h | ⟨-, -, -, h⟩⟩) <;> exact h rfl

def idle : Callback := pure

/-- A callback with a query of its own that the server refuses. -/
def refusedInside : Callback := fun s => pure (connectError s)

/-- The switch is refused with a message, and the command then accepted. -/
theorem refusedSwitch_answers : Answers stringToNumber quiet
    (utf8Bytes "FAIL0004downOKAY".toList) "shell:ls".toList idle false := by
  refine (answers_iff _ _ _ _ _ _ fun s => ⟨s, rfl⟩).mpr ?_
  have hfirst : HasStatus stringToNumber (utf8Bytes "FAIL0004downOKAY".toList) :=
    ⟨by decide, fun _ => ⟨4, rfl, .inr (by decide)⟩⟩
  have hlast : HasStatus stringToNumber (commandStream stringToNumber
      (utf8Bytes "FAIL0004downOKAY".toList) "shell:ls".toList) :=
    ⟨by decide, fun hrefuses => absurd hrefuses (by decide)⟩
  rw [Answerable, if_pos (by decide)]
  refine .inr ⟨not_roundFails_quiet _ _ _, hfirst, by decide, .inr ⟨not_roundFails_quiet _ _ _,
    hlast, fun _ s' hreturns => ?_⟩⟩
  cases hreturns
  exact ⟨rfl, fun _ _ h => absurd rfl h⟩

/-- A server that closes the connection at once, or within the message of a refusal, makes the query
raise an error that no handler is there for. Where the network fails the ports stay open, and a
query in the callback can change what is returned. -/
theorem closedAtOnce_raises :
    (query stringToNumber quiet (some []) "host:version".toList idle false).Raises .contract ∧
    (query stringToNumber quiet (some (utf8Bytes "FAIL".toList)) "host:version".toList idle
      false).Raises .contract ∧
    ¬ Answers stringToNumber quiet [] "host:version".toList idle false ∧
    ¬ Answers stringToNumber (fun op => if op = .send .command then some 0 else none)
      (utf8Bytes "OKAYOKAY".toList) "shell:ls".toList idle false ∧
    ¬ Answers stringToNumber quiet (utf8Bytes "OKAY".toList) "host:version".toList refusedInside
      false := by
  have hraises : (query stringToNumber quiet (some []) "host:version".toList idle false).Raises
      .contract := rfl
  refine ⟨hraises, rfl, ?_, ?_, ?_⟩
  · rintro ⟨s, hreturns, -⟩
    cases hreturns.symm.trans hraises
  · rintro ⟨s, hreturns, -, hports⟩
    cases hreturns
    exact Bool.false_ne_true (hports rfl).1
  · rintro ⟨s, hreturns, hflag, -⟩
    cases hreturns
    have hgranted : Granted (utf8Bytes "OKAY".toList) "host:version".toList := by
      rw [Granted, if_neg (by decide)]
      decide
    exact Bool.false_ne_true (hflag.mpr ⟨hgranted, rfl⟩)

end CodeSlices.Adb
